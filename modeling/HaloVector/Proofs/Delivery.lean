import Mathlib.Data.List.Basic
import HaloVector.Exchange.ByRank
import HaloVector.Proofs.Lockstep
import HaloVector.Proofs.Tiling

/-!
# Delivery

What the exchanges of a group deliver. If the counts of all ranks agree pairwise,
every message that is sent is awaited, no other is, and each rank ends up with the
parts that the others had for it.

* `Group.settles_exchangeBytes` on raw buffers, for any layouts that fit.
* `Group.settles_exchange` on buffers of cells, and `Group.settles_exchange_packed` on packed
  ones.
* `Group.settles_exchangeCounts` and `Group.settles_exchangeByRank` on top of it.

None of these depends on the tag: when an exchange is over the mailbox is empty, so
the next one may use the same tag again.
-/

namespace HaloVector

/-! ## Turns of an exchange -/

namespace Program

variable {α β : Type}

theorem computes_mapM {f : α → Program β} {g : α → β} {items : List α}
    (each : ∀ item, (f item).Computes (g item)) : (items.mapM f).Computes (items.map g) := by
  induction items with
  | nil => exact computes_done []
  | cons item rest ih =>
    rw [List.mapM_cons, List.map_cons]
    exact (each item).bind (ih.bind (computes_done _))

theorem computes_forM {f : α → Program Unit} {items : List α}
    (each : ∀ item, (f item).Computes ()) : (items.forM f).Computes () := by
  induction items with
  | nil => exact computes_done ()
  | cons item rest ih => exact (each item).bind ih

end Program

theorem computes_postReceives (incoming : Layout) (tag : Tag) (peers : List Nat) :
    (postReceives incoming tag peers).Computes
      ((incoming.nonempty peers).map fun peer => (peer, ⟨peer, tag, 0⟩)) :=
  Program.computes_mapM fun _ _ _ => rfl

theorem computes_flushParts (outgoing : Layout) (tag : Tag) (peers : List Nat) :
    (flushParts outgoing tag peers).Computes () :=
  Program.computes_forM fun _ _ _ => rfl

/-- Puts one message for each of some targets. -/
def Mailbox.putAll (m : Mailbox) (source : Nat) (tag : Tag) (data : Nat → Bytes)
    (targets : List Nat) : Mailbox :=
  targets.foldl (fun m target => m.put ⟨source, target, tag⟩ (data target)) m

theorem Mailbox.queue_putAll (m : Mailbox) (source : Nat) (tag : Tag) (data : Nat → Bytes)
    {targets : List Nat} (distinct : targets.Nodup) (channel : Channel) :
    (m.putAll source tag data targets).queue channel =
      if channel.source = source ∧ channel.tag = tag ∧ channel.target ∈ targets
      then m.queue channel ++ [data channel.target] else m.queue channel := by
  induction targets generalizing m with
  | nil => simp [putAll]
  | cons target rest ih =>
    obtain ⟨absent, distinct⟩ := List.nodup_cons.1 distinct
    obtain ⟨from', to', label⟩ := channel
    show ((m.put ⟨source, target, tag⟩ (data target)).putAll source tag data rest).queue _ = _
    rw [ih _ distinct, queue_put]
    by_cases here : to' = target
    · subst here
      simp only [absent, and_false, if_false, List.mem_cons_self, and_true, Channel.mk.injEq]
      grind
    · simp [here, Ne.symm here]

theorem solo_sendParts (rank : Nat) (buffer : Bytes) (outgoing : Layout) (tag : Tag)
    (peers : List Nat) (mailbox : Mailbox) :
    (sendParts buffer outgoing tag peers).solo rank mailbox =
      some ((), mailbox.putAll rank tag (outgoing.part buffer) (outgoing.nonempty peers)) := by
  unfold sendParts
  induction outgoing.nonempty peers generalizing mailbox with
  | nil => rfl
  | cons peer rest ih => exact ih _

theorem solo_awaitParts_cons {rank peer : Nat} {tag : Tag} {data : Bytes}
    {mailbox rest : Mailbox} (taken : mailbox.take? ⟨peer, rank, tag⟩ = some (data, rest))
    (me : Nat) (incoming : Layout) (later : List (Nat × Ticket)) (received : Attempt Bytes) :
    (awaitParts me incoming ((peer, ⟨peer, tag, 0⟩) :: later) received).solo rank mailbox =
      (awaitParts me incoming later
        (accept incoming peer (peerPart incoming peer (some data)) received)).solo rank rest := by
  unfold awaitParts
  rw [List.foldlM_cons, Program.bind_eq, Program.solo_bind]
  simp only [Program.bind_eq, Program.awaitReceive, Program.writeLog, Program.bind,
    Program.pure_eq, Program.solo, taken, Option.bind_eq_bind, Option.bind_some]

/-- A rank that awaits what is there takes it, oldest first, and nothing else. -/
theorem solo_awaitParts {rank : Nat} {tag : Tag} {sent : Nat → Bytes} {peers : List Nat}
    (distinct : peers.Nodup) {mailbox : Mailbox}
    (waiting : ∀ peer ∈ peers, ∃ later, mailbox.queue ⟨peer, rank, tag⟩ = sent peer :: later)
    (me : Nat) (incoming : Layout) (received : Attempt Bytes) :
    ∃ after,
      (awaitParts me incoming (peers.map fun peer => (peer, ⟨peer, tag, 0⟩)) received).solo rank
          mailbox =
        some (peers.foldl (fun received peer =>
          accept incoming peer (peerPart incoming peer (some (sent peer))) received) received,
          after) ∧
      ∀ channel, after.queue channel =
        if channel.target = rank ∧ channel.tag = tag ∧ channel.source ∈ peers
        then (mailbox.queue channel).tail else mailbox.queue channel := by
  induction peers generalizing received mailbox with
  | nil => exact ⟨mailbox, rfl, by simp⟩
  | cons peer rest ih =>
    obtain ⟨absent, distinct⟩ := List.nodup_cons.1 distinct
    obtain ⟨⟨later, oldest⟩, others⟩ := List.forall_mem_cons.1 waiting
    have left := mailbox.queue_setQueue ⟨peer, rank, tag⟩
    have still : ∀ other ∈ rest, ∃ later',
        (mailbox.setQueue ⟨peer, rank, tag⟩ later).queue ⟨other, rank, tag⟩ =
          sent other :: later' := by
      intro other member
      have apart : peer ≠ other := fun same => absent (same ▸ member)
      rw [left, if_neg (by simpa using apart)]
      exact others other member
    obtain ⟨after, ran, queues⟩ := ih distinct still
      (accept incoming peer (peerPart incoming peer (some (sent peer))) received)
    refine ⟨after, ?_, fun channel => ?_⟩
    · rw [List.map_cons, List.foldl_cons,
        solo_awaitParts_cons (Mailbox.take?_eq_some_iff.2 ⟨later, oldest, rfl⟩), ran]
    · rw [queues, left]
      obtain ⟨source, target, label⟩ := channel
      by_cases here : source = peer ∧ target = rank ∧ label = tag
      · obtain ⟨rfl, rfl, rfl⟩ := here
        simp [absent, oldest]
      · grind

/-! ## Bytes -/

theorem checkLayouts_eq_ok_iff {size : Nat} {sent buffer : Bytes} {outgoing incoming : Layout} :
    checkLayouts size sent outgoing buffer incoming = .ok () ↔
      outgoing.check "all-to-all send layout" size sent.length = .ok () ∧
        incoming.check "all-to-all recv layout" size buffer.length = .ok () := by
  rw [checkLayouts, bind_eq_ok_iff]
  exact ⟨fun ⟨_, sends, receives⟩ => ⟨sends, receives⟩,
    fun ⟨sends, receives⟩ => ⟨(), sends, receives⟩⟩

theorem peerPart_whole {incoming : Layout} {peer : Nat} {data : Bytes}
    (whole : data.length = incoming.count peer) :
    peerPart incoming peer (some data) = .ok data := if_pos whole

/-- Good parts are written one after the other. -/
theorem foldl_accept {incoming : Layout} {data : Nat → Bytes} {peers : List Nat}
    (whole : ∀ peer ∈ peers, (data peer).length = incoming.count peer) (buffer : Bytes) :
    peers.foldl (fun received peer =>
        accept incoming peer (peerPart incoming peer (some (data peer))) received)
      ⟨buffer, .ok ()⟩ = ⟨incoming.writeParts data peers buffer, .ok ()⟩ := by
  induction peers generalizing buffer with
  | nil => rfl
  | cons peer rest ih =>
    obtain ⟨here, later⟩ := List.forall_mem_cons.1 whole
    rw [List.foldl_cons, peerPart_whole here]
    exact ih later _

namespace Group

section exchangeBytes

variable {size : Nat} {sent buffer : Nat → Bytes} {outgoing incoming : Nat → Layout}
  {tag : Tag}

/-- The ranks that have something for a rank, itself first. -/
def contributors (size : Nat) (incoming : Layout) (rank : Nat) : List Nat :=
  rank :: incoming.nonempty (Topology.mk rank size).peers

/-- The mailbox when the ranks below `k` have sent their parts. -/
def Sending (size : Nat) (sent : Nat → Bytes) (outgoing : Nat → Layout) (tag : Tag) (k : Nat)
    (mailbox : Mailbox) : Prop :=
  ∀ source target label, mailbox.queue ⟨source, target, label⟩ =
    if source < k ∧ label = tag ∧
      target ∈ (outgoing source).nonempty (Topology.mk source size).peers
    then [(outgoing source).part (sent source) target] else []

/-- The mailbox when the ranks below `k` have received what was sent to them. -/
def Receiving (size : Nat) (sent : Nat → Bytes) (outgoing : Nat → Layout) (tag : Tag) (k : Nat)
    (mailbox : Mailbox) : Prop :=
  ∀ source target label, mailbox.queue ⟨source, target, label⟩ =
    if source < size ∧ k ≤ target ∧ label = tag ∧
      target ∈ (outgoing source).nonempty (Topology.mk source size).peers
    then [(outgoing source).part (sent source) target] else []

theorem nodup_nonempty_peers (layout : Layout) (topology : Topology) :
    (layout.nonempty topology.peers).Nodup :=
  (List.nodup_range.filter _).filter _

theorem mem_nonempty_peers {layout : Layout} {topology : Topology} {peer : Nat} :
    peer ∈ layout.nonempty topology.peers ↔
      peer < topology.size ∧ peer ≠ topology.rank ∧ 0 < layout.count peer := by
  simp [Layout.nonempty, and_assoc]

theorem exists_sending {rank : Nat} {before : Mailbox}
    (held : Sending size sent outgoing tag rank before) :
    ∃ after, (sendParts (sent rank) (outgoing rank) tag (Topology.mk rank size).peers).solo rank
        before = some ((), after) ∧
      Sending size sent outgoing tag (rank + 1) after := by
  refine ⟨_, solo_sendParts .., fun source target label => ?_⟩
  rw [Mailbox.queue_putAll _ _ _ _ (nodup_nonempty_peers _ _), held]
  grind

theorem exists_receiving {rank : Nat} (inside : rank < size)
    (paired : ∀ source < size, ∀ target < size,
      (outgoing source).count target = (incoming target).count source)
    {before : Mailbox} (held : Receiving size sent outgoing tag rank before)
    (me : Nat) (received : Attempt Bytes) :
    ∃ after,
      (awaitParts me (incoming rank)
          (((incoming rank).nonempty (Topology.mk rank size).peers).map fun peer =>
            (peer, ⟨peer, tag, 0⟩)) received).solo rank before =
        some (((incoming rank).nonempty (Topology.mk rank size).peers).foldl
          (fun received peer => accept (incoming rank) peer
            (peerPart (incoming rank) peer (some ((outgoing peer).part (sent peer) rank)))
            received) received, after) ∧
      Receiving size sent outgoing tag (rank + 1) after := by
  have waiting : ∀ peer ∈ (incoming rank).nonempty (Topology.mk rank size).peers,
      ∃ later, before.queue ⟨peer, rank, tag⟩ = (outgoing peer).part (sent peer) rank :: later := by
    intro peer member
    obtain ⟨within, other, some'⟩ := mem_nonempty_peers.1 member
    refine ⟨[], ?_⟩
    rw [held, if_pos]
    refine ⟨within, Nat.le_refl rank, rfl, mem_nonempty_peers.2 ⟨inside, Ne.symm other, ?_⟩⟩
    rwa [paired peer within rank inside]
  obtain ⟨after, ran, queues⟩ := solo_awaitParts (nodup_nonempty_peers _ _) waiting me
    (incoming rank) received
  refine ⟨after, ran, fun source target label => ?_⟩
  rw [queues, held]
  show (if target = rank ∧ label = tag ∧ source ∈ (incoming rank).nonempty _ then _ else _) = _
  -- the queues to this rank are empty now, and the others are as they were
  by_cases here : target = rank
  · subst here
    have matching : source < size ∧
        target ∈ (outgoing source).nonempty (Topology.mk source size).peers ↔
        source ∈ (incoming target).nonempty (Topology.mk target size).peers := by
      rw [mem_nonempty_peers, mem_nonempty_peers]
      constructor
      · rintro ⟨within, -, other, some'⟩
        exact ⟨within, Ne.symm other, paired source within target inside ▸ some'⟩
      · rintro ⟨within, other, some'⟩
        exact ⟨within, inside, Ne.symm other, (paired source within target inside).symm ▸ some'⟩
    refine Eq.trans ?_ (if_neg fun later => Nat.not_succ_le_self _ later.2.1).symm
    by_cases taken : label = tag ∧
        source ∈ (incoming target).nonempty (Topology.mk target size).peers
    · rw [if_pos ⟨rfl, taken⟩]
      split <;> rfl
    · rw [if_neg (fun member => taken member.2), if_neg]
      rintro ⟨within, -, same, member⟩
      exact taken ⟨same, matching.1 ⟨within, member⟩⟩
  · have later : rank ≤ target ↔ rank + 1 ≤ target := by omega
    simp [here, later]

/-- When all have sent and received, nothing is left. -/
theorem Receiving.eq_empty {mailbox : Mailbox}
    (held : Receiving size sent outgoing tag size mailbox) : mailbox = .empty := by
  ext1 ⟨source, target, label⟩
  rw [held, Mailbox.queue_empty, if_neg]
  rintro ⟨-, outside, -, member⟩
  exact absurd (mem_nonempty_peers.1 member).1 (Nat.not_lt.2 outside)

theorem exchangeBytes_member {rank : Nat} (inside : rank < size) {sent buffer : Bytes}
    {outgoing incoming : Layout}
    (fits : checkLayouts size sent outgoing buffer incoming = .ok ()) :
    exchangeBytes (.member rank size) sent outgoing buffer incoming tag =
      (postReceives incoming tag (Topology.mk rank size).peers).bind fun tickets =>
        ((sendParts sent outgoing tag (Topology.mk rank size).peers).bind fun _ =>
          awaitParts rank incoming tickets
            (accept incoming rank (ownPart rank sent outgoing incoming) ⟨buffer, .ok ()⟩)).bind
          fun received => (flushParts outgoing tag (Topology.mk rank size).peers).bind
            fun _ => .done received := by
  simp only [exchangeBytes, Communicator.topology_member inside, fits, Program.bind_assoc]
  rfl

variable (sent tag) in
theorem settles_transfer
    (paired : ∀ source < size, ∀ target < size,
      (outgoing source).count target = (incoming target).count source)
    (received : Nat → Attempt Bytes) :
    Settles size
      (fun rank => (sendParts (sent rank) (outgoing rank) tag (Topology.mk rank size).peers).bind
        fun _ => awaitParts rank (incoming rank)
          (((incoming rank).nonempty (Topology.mk rank size).peers).map fun peer =>
            (peer, ⟨peer, tag, 0⟩)) (received rank))
      fun rank => ((incoming rank).nonempty (Topology.mk rank size).peers).foldl
        (fun received peer => accept (incoming rank) peer
          (peerPart (incoming rank) peer (some ((outgoing peer).part (sent peer) rank))) received)
        (received rank) := by
  rw [settles_iff_reaches]
  have start : Sending size sent outgoing tag 0 .empty := by
    intro source target label
    rw [Mailbox.queue_empty, if_neg (fun early => Nat.not_lt_zero source early.1)]
  -- first every rank sends, and nobody waits yet
  obtain ⟨between, allSent, sending⟩ := reaches_round
    (p := fun rank => sendParts (sent rank) (outgoing rank) tag (Topology.mk rank size).peers)
    (f := fun rank _ => awaitParts rank (incoming rank)
      (((incoming rank).nonempty (Topology.mk rank size).peers).map fun peer =>
        (peer, ⟨peer, tag, 0⟩)) (received rank))
    (Sending size sent outgoing tag) start
    fun rank (_ : rank < size) before held => exists_sending held
  -- then all that a rank waits for is there when its turn comes
  have waiting : Receiving size sent outgoing tag 0 between := by
    intro source target label
    rw [allSent]
    simp only [Nat.zero_le, true_and]
  obtain ⟨last, held, receiving⟩ := reaches_round (f := fun _ => Program.done)
    (Receiving size sent outgoing tag) waiting
    fun rank inside before held => exists_receiving inside paired held rank (received rank)
  simp only [Program.bind_done] at receiving
  rw [held.eq_empty] at receiving
  exact sending.trans receiving

variable (tag) in
/-- If the counts agree, every rank receives the parts that the others had for it. -/
theorem settles_exchangeBytes
    (fitting : ∀ rank < size,
      checkLayouts size (sent rank) (outgoing rank) (buffer rank) (incoming rank) = .ok ())
    (paired : ∀ source < size, ∀ target < size,
      (outgoing source).count target = (incoming target).count source) :
    Settles size
      (fun rank => exchangeBytes (.member rank size) (sent rank) (outgoing rank) (buffer rank)
        (incoming rank) tag)
      fun rank => ⟨(incoming rank).writeParts
        (fun source => (outgoing source).part (sent source) rank)
        (contributors size (incoming rank) rank) (buffer rank), .ok ()⟩ := by
  let own (rank : Nat) := accept (incoming rank) rank
    (ownPart rank (sent rank) (outgoing rank) (incoming rank)) ⟨buffer rank, .ok ()⟩
  have posted : Settles size
      (fun rank => postReceives (incoming rank) tag (Topology.mk rank size).peers) _ :=
    .of_computes fun rank _ => computes_postReceives _ _ _
  have flushed (received : Nat → Attempt Bytes) : Settles size
      (fun rank => (flushParts (outgoing rank) tag (Topology.mk rank size).peers).bind
        fun _ => .done (received rank)) received :=
    .of_computes fun rank _ =>
      (computes_flushParts _ _ _).bind (Program.computes_done (received rank))
  have moved := settles_transfer sent tag paired own
  have arrived : ∀ rank < size,
      ((incoming rank).nonempty (Topology.mk rank size).peers).foldl (fun received peer =>
        accept (incoming rank) peer
          (peerPart (incoming rank) peer (some ((outgoing peer).part (sent peer) rank))) received)
        (own rank) =
      ⟨(incoming rank).writeParts (fun source => (outgoing source).part (sent source) rank)
        (contributors size (incoming rank) rank) (buffer rank), .ok ()⟩ := by
    intro rank inside
    have kept : own rank = ⟨writeAt (buffer rank) ((incoming rank).offset rank)
        ((outgoing rank).part (sent rank) rank), .ok ()⟩ := by
      simp only [own, ownPart, if_pos (paired rank inside rank inside), accept]
    rw [kept]
    refine foldl_accept (fun peer member => ?_) _
    obtain ⟨within, -, -⟩ := mem_nonempty_peers.1 member
    rw [← paired peer within rank inside]
    have sends := (checkLayouts_eq_ok_iff.1 (fitting peer within)).1
    exact Layout.length_part (Layout.fits_of_check sends inside)
  rw [settles_iff_reaches,
    ofRanks_congr fun rank inside => exchangeBytes_member inside (fitting rank inside),
    ← ofRanks_congr fun rank inside => congrArg Program.done (arrived rank inside),
    ← settles_iff_reaches]
  exact posted.bind (moved.bind (flushed _))

end exchangeBytes

end Group

theorem flatMap_filter {α β : Type} {p : α → Bool} {f : α → List β} {items : List α}
    (nothing : ∀ item ∈ items, p item = false → f item = []) :
    (items.filter p).flatMap f = items.flatMap f := by
  induction items with
  | nil => rfl
  | cons item rest ih =>
    obtain ⟨here, later⟩ := List.forall_mem_cons.1 nothing
    rw [List.filter_cons, List.flatMap_cons]
    split
    · rw [List.flatMap_cons, ih later]
    · rename_i dropped
      rw [here (Bool.eq_false_iff.2 dropped), ih later, List.nil_append]

/-! ## Cells -/

/-- Layouts that fit buffers of cells fit these in bytes. -/
theorem checkLayouts_scale {α : Type} [Cell α] [LawfulCell α] {size : Nat} {sent : List α}
    {outgoing incoming : Layout}
    (sends : outgoing.check "all-to-all send layout" size sent.length = .ok ())
    (receives : incoming.check "all-to-all recv layout" size incoming.extent = .ok ()) :
    checkLayouts size (Cell.encodeAll sent) (outgoing.scale (Cell.width α))
      (List.replicate (incoming.extent * Cell.width α) 0) (incoming.scale (Cell.width α)) =
        .ok () := by
  rw [checkLayouts_eq_ok_iff, Cell.length_encodeAll, List.length_replicate]
  exact ⟨Layout.check_scale sends _ _, Layout.check_scale receives _ _⟩

namespace Group

section exchange

variable {α : Type} [Cell α] [LawfulCell α] {size : Nat} {sent : Nat → List α}

section layouts

variable {outgoing incoming : Nat → Layout} {tag : Tag}

theorem lt_of_mem_contributors {layout : Layout} {rank source : Nat} (inside : rank < size)
    (member : source ∈ contributors size layout rank) : source < size := by
  rcases List.mem_cons.1 member with rfl | peer
  · exact inside
  · exact (mem_nonempty_peers.1 peer).1

/-- Who has something for a rank contributes to its buffer. -/
theorem mem_contributors_of_pos {layout : Layout} {rank source : Nat} (within : source < size)
    (some' : 0 < layout.count source) : source ∈ contributors size layout rank := by
  by_cases own : source = rank
  · exact List.mem_cons.2 (.inl own)
  · exact List.mem_cons.2 (.inr (mem_nonempty_peers.2 ⟨within, own, some'⟩))

theorem contributors_scale {width : Nat} (wide : 0 < width) (layout : Layout) (rank : Nat) :
    contributors size (layout.scale width) rank = contributors size layout rank := by
  rw [contributors, Layout.nonempty_scale wide, contributors]

variable (sent tag) in
/-- If the counts agree, every rank ends with the parts that the others had for it, in a
buffer that was zero before. -/
theorem settles_exchange
    (sends : ∀ rank < size,
      (outgoing rank).check "all-to-all send layout" size (sent rank).length = .ok ())
    (receives : ∀ rank < size,
      (incoming rank).check "all-to-all recv layout" size (incoming rank).extent = .ok ())
    (paired : ∀ source < size, ∀ target < size,
      (outgoing source).count target = (incoming target).count source) :
    Settles size
      (fun rank => (exchange (.member rank size) (sent rank) (outgoing rank) (incoming rank)
        tag).run)
      fun rank => .ok ((incoming rank).writeParts
        (fun source => (outgoing source).part (sent source) rank)
        (contributors size (incoming rank) rank)
        (List.replicate (incoming rank).extent (Cell.zero α))) := by
  let width := Cell.width α
  let blank (rank : Nat) : Bytes := List.replicate ((incoming rank).extent * width) 0
  have fitting : ∀ rank < size, checkLayouts size (Cell.encodeAll (sent rank))
      ((outgoing rank).scale width) (blank rank) ((incoming rank).scale width) = .ok () :=
    fun rank inside => checkLayouts_scale (sends rank inside) (receives rank inside)
  have moved := settles_exchangeBytes tag fitting fun source inside target within => by
    rw [Layout.count_scale, Layout.count_scale, paired source inside target within]
  have cells : ∀ rank < size,
      Cell.decodeAll (incoming rank).extent (((incoming rank).scale width).writeParts
        (fun source => ((outgoing source).scale width).part (Cell.encodeAll (sent source)) rank)
        (contributors size ((incoming rank).scale width) rank) (blank rank)) =
      (incoming rank).writeParts (fun source => (outgoing source).part (sent source) rank)
        (contributors size (incoming rank) rank)
        (List.replicate (incoming rank).extent (Cell.zero α)) := by
    intro rank inside
    have sized : ∀ source ∈ contributors size (incoming rank) rank,
        ((outgoing source).part (sent source) rank).length = (incoming rank).count source := by
      intro source member
      have within := lt_of_mem_contributors inside member
      rw [← paired source within rank inside]
      exact Layout.length_part (Layout.fits_of_check (sends source within) inside)
    have fits : ∀ source ∈ contributors size (incoming rank) rank,
        (incoming rank).offset source + (incoming rank).count source ≤
          (List.replicate (incoming rank).extent (Cell.zero α)).length := by
      intro source member
      rw [List.length_replicate]
      exact Layout.fits_of_check (receives rank inside) (lt_of_mem_contributors inside member)
    have full := Layout.length_writeParts sized fits
    rw [List.length_replicate] at full
    simp only [width, blank, Layout.part_encodeAll, contributors_scale LawfulCell.width_pos,
      ← Cell.encodeAll_replicate_zero, Layout.writeParts_encodeAll]
    conv => lhs; arg 1; rw [← full]
    exact Cell.decodeAll_encodeAll _
  refine (Collective.settles_map _ (Collective.settles_ofAttempt moved)).congr
    (fun _ _ => rfl) fun rank inside => ?_
  rw [cells rank inside]

end layouts

/-! ## Packed buffers -/

variable {outgoing incoming : Nat → List Nat} {tag : Tag}

/-- What the others had for a rank, by their ranks. -/
def delivered (size : Nat) (outgoing : Nat → List Nat) (sent : Nat → List α) (rank : Nat) :
    List α :=
  (List.range size).flatMap fun source => (Layout.packed (outgoing source)).part (sent source) rank

/-- The parts of all ranks fill a packed buffer, whatever was in it. -/
theorem writeParts_contributors {β : Type} {counts : List Nat} {data : Nat → List β}
    {buffer : List β} {rank : Nat} (inside : rank < size) (whole : counts.length = size)
    (exact' : buffer.length = totalCount counts)
    (sized : ∀ source < size, (data source).length = counts.getD source 0) :
    (Layout.packed counts).writeParts data (contributors size (.packed counts) rank) buffer =
      (List.range size).flatMap data := by
  let layout := Layout.packed counts
  let ranks := contributors size layout rank
  have within : ∀ source ∈ ranks, source < size :=
    fun source member => lt_of_mem_contributors inside member
  have fits : ∀ source ∈ ranks, layout.offset source + layout.count source ≤ buffer.length := by
    intro source member
    rw [exact']
    exact Layout.packed_fits (whole ▸ within source member)
  have sizes : ∀ source ∈ ranks, (data source).length = layout.count source :=
    fun source member => sized source (within source member)
  have full : (layout.writeParts data ranks buffer).length = totalCount counts :=
    (Layout.length_writeParts sizes fits).trans exact'
  show layout.writeParts data ranks buffer = _
  rw [← Layout.flatMap_part_packed full, whole]
  refine List.flatMap_congr fun source member => ?_
  have bound := List.mem_range.1 member
  have apart : ∀ other ∈ ranks, other ≠ source → layout.Apart other source :=
    fun other present distinct => Layout.packed_apart distinct
      (whole ▸ within other present) (whole ▸ bound)
  rw [Layout.part_writeParts sizes fits apart]
  split
  · rfl
  -- who contributes nothing has an empty part
  · rename_i absent
    have none_here : layout.count source = 0 :=
      Nat.eq_zero_of_not_pos fun some' => absent (mem_contributors_of_pos bound some')
    have nothing : data source = [] :=
      List.eq_nil_of_length_eq_zero ((sized source bound).trans none_here)
    rw [nothing, Layout.part, none_here, slice_zero]

variable (sent outgoing incoming tag) in
/-- On packed buffers every rank receives what the others had for it, by their ranks. -/
theorem settles_exchange_packed
    (wholeOut : ∀ rank < size, (outgoing rank).length = size)
    (wholeIn : ∀ rank < size, (incoming rank).length = size)
    (full : ∀ rank < size, totalCount (outgoing rank) ≤ (sent rank).length)
    (paired : ∀ source < size, ∀ target < size,
      (outgoing source).getD target 0 = (incoming target).getD source 0) :
    Settles size
      (fun rank => (exchange (.member rank size) (sent rank) (.packed (outgoing rank))
        (.packed (incoming rank)) tag).run)
      fun rank => .ok (delivered size outgoing sent rank) := by
  have moved := settles_exchange sent tag
    (fun rank inside => Layout.check_packed (wholeOut rank inside) (full rank inside))
    (fun rank inside => Layout.check_packed (wholeIn rank inside)
      (Nat.le_of_eq (Layout.extent_packed _).symm)) paired
  refine moved.congr (fun _ _ => rfl) fun rank inside => congrArg Except.ok ?_
  rw [delivered]
  refine writeParts_contributors inside (wholeIn rank inside) ?_ fun source within => ?_
  · rw [List.length_replicate, Layout.extent_packed]
  · rw [← paired source within rank inside]
    exact Layout.length_part (Nat.le_trans
      (Layout.packed_fits ((wholeOut source within).symm ▸ inside)) (full source within))

end exchange

/-! ## Counts -/

/-- Every rank learns the counts that the others have for it. -/
theorem settles_exchangeCounts {size : Nat} (counts : Nat → List Nat) (tag : Tag)
    (whole : ∀ rank < size, (counts rank).length = size)
    (small : ∀ rank < size, ∀ count ∈ counts rank, count ≤ lastIndex) :
    Settles size (fun rank => (exchangeCounts (.member rank size) (counts rank) tag).run)
      fun rank => .ok ((List.range size).map fun source => (counts source).getD rank 0) := by
  have arrived : ∀ rank < size,
      (delivered size (fun _ => List.replicate size 1)
        (fun source => (counts source).map UInt64.ofNat) rank).map UInt64.toNat =
      (List.range size).map fun source => (counts source).getD rank 0 := by
    intro rank inside
    rw [delivered, List.map_flatMap, List.map_eq_flatMap]
    refine List.flatMap_congr fun source member => ?_
    have within := List.mem_range.1 member
    have bound : rank < (counts source).length := by rwa [whole source within]
    have tiny : (counts source)[rank] < UInt64.size :=
      Nat.lt_succ_of_le (small source within _ (List.getElem_mem bound))
    rw [Layout.part_ones (by simpa using whole source within) inside, List.map_singleton,
      List.getElem_map, UInt64.toNat_ofNat_of_lt' tiny, List.getD_eq_getElem?_getD,
      List.getElem?_eq_getElem bound, Option.getD_some]
  have moved := settles_exchange_packed (fun rank => (counts rank).map UInt64.ofNat)
    (fun _ => List.replicate size 1) (fun _ => List.replicate size 1) tag
    (fun _ _ => List.length_replicate) (fun _ _ => List.length_replicate)
    (fun rank inside => by simp [whole rank inside])
    (fun _ inside _ within => by simp [List.getD_eq_getElem?_getD, inside, within])
  refine (Collective.settles_map (fun _ received => received.map UInt64.toNat) moved).congr
    (fun rank inside => ?_) fun rank inside => congrArg Except.ok (arrived rank inside)
  have matching : ¬(counts rank).length ≠ (Communicator.member rank size).size :=
    fun short => short (whole rank inside)
  unfold exchangeCounts
  simp only [if_neg matching, Layout.uniform_eq_packed]
  rfl

/-! ## Lists -/

section exchangeByRank

variable {α : Type} {size : Nat} {lists : Nat → RankMap (List α)}

/-- The lists that the others have for a rank. -/
def mailFor (size : Nat) (lists : Nat → RankMap (List α)) (rank : Nat) : RankMap (List α) :=
  .ofList (((List.range size).filter fun source => 0 < ((lists source).listOf rank).length).map
    fun source => (source, (lists source).listOf rank))

theorem toList_mailFor (size : Nat) (lists : Nat → RankMap (List α)) (rank : Nat) :
    (mailFor size lists rank).toList =
      ((List.range size).filter fun source => 0 < ((lists source).listOf rank).length).map
        fun source => (source, (lists source).listOf rank) := by
  apply RankMap.toList_ofList
  rw [List.pairwise_map]
  exact List.pairwise_lt_range.filter _

theorem listOf_mailFor {source : Nat} (inside : source < size) (rank : Nat) :
    (mailFor size lists rank).listOf source = (lists source).listOf rank := by
  unfold RankMap.listOf
  cases found : (mailFor size lists rank)[source]? with
  | some list =>
    rw [← Std.ExtTreeMap.mem_toList_iff_getElem?_eq_some, toList_mailFor] at found
    obtain ⟨_, _, same⟩ := List.mem_map.1 found
    cases same
    rfl
  | none =>
    have empty : ((lists source).listOf rank).length = 0 := by
      refine Nat.eq_zero_of_not_pos fun some' => ?_
      have member : (source, (lists source).listOf rank) ∈ (mailFor size lists rank).toList := by
        rw [toList_mailFor]
        refine List.mem_map.2 ⟨source, List.mem_filter.2 ⟨List.mem_range.2 inside, ?_⟩, rfl⟩
        exact decide_eq_true some'
      rw [Std.ExtTreeMap.mem_toList_iff_getElem?_eq_some, found] at member
      cases member
    exact (List.eq_nil_of_length_eq_zero empty).symm

/-- Going through the mail is going through all ranks. -/
theorem flatMap_mailFor {β : Type} {f : Nat × List α → List β}
    (nothing : ∀ source, f (source, []) = []) (rank : Nat) :
    (mailFor size lists rank).toList.flatMap f =
      (List.range size).flatMap fun source => f (source, (lists source).listOf rank) := by
  rw [toList_mailFor, List.flatMap_map]
  refine flatMap_filter fun source _ silent => ?_
  rw [List.eq_nil_of_length_eq_zero (Nat.eq_zero_of_not_pos (of_decide_eq_false silent))]
  exact nothing source

theorem part_concat {m : RankMap (List α)} {rank : Nat} (inside : rank < size) :
    (Layout.packed (m.counts size)).part (m.concat size) rank = m.listOf rank := by
  have counts : m.counts size = ((List.range size).map m.listOf).map List.length := by
    rw [List.map_map]
    rfl
  rw [counts, RankMap.concat, List.flatMap_def, Layout.part_packed_flatten (by simpa using inside)]
  simp

theorem ofParts_delivered {rank : Nat} (inside : rank < size) :
    RankMap.ofParts
        (.packed ((List.range size).map fun source => ((lists source).counts size).getD rank 0))
        (delivered size (fun source => (lists source).counts size)
          (fun source => (lists source).concat size) rank) size =
      mailFor size lists rank := by
  let mail := (List.range size).map fun source => (lists source).listOf rank
  have counts : (List.range size).map (fun source => ((lists source).counts size).getD rank 0) =
      mail.map List.length := by
    simp [mail, RankMap.counts, List.getD_eq_getElem?_getD, inside]
  have content : delivered size (fun source => (lists source).counts size)
      (fun source => (lists source).concat size) rank = mail.flatten := by
    rw [delivered, ← List.flatMap_def]
    exact List.flatMap_congr fun source _ => part_concat inside
  have parts : ∀ source < size,
      (Layout.packed (mail.map List.length)).part mail.flatten source =
        (lists source).listOf rank := by
    intro source within
    rw [Layout.part_packed_flatten (by simpa [mail] using within)]
    simp [mail]
  have sources : (Layout.packed (mail.map List.length)).nonempty (List.range size) =
      (List.range size).filter fun source => 0 < ((lists source).listOf rank).length := by
    refine List.filter_congr fun source member => ?_
    simp [Layout.packed_count, mail, List.getD_eq_getElem?_getD, List.mem_range.1 member]
  rw [counts, content, RankMap.ofParts, mailFor, sources]
  congr 1
  refine List.map_congr_left fun source member => ?_
  rw [parts source (List.mem_range.1 (List.mem_of_mem_filter member))]

variable (lists) in
/-- Every rank receives the lists that the others have for it. -/
theorem settles_exchangeByRank [Cell α] [LawfulCell α] (tags : ExchangeTags)
    (addressed : ∀ rank < size, ∀ target ∈ (lists rank).keys, target < size)
    (small : ∀ rank < size, ∀ target < size, ((lists rank).listOf target).length ≤ lastIndex) :
    Settles size (fun rank => (exchangeByRank (.member rank size) (lists rank) tags).run)
      fun rank => .ok (mailFor size lists rank) := by
  have counted := settles_exchangeCounts (fun rank => (lists rank).counts size)
    tags.sizes (fun rank _ => (lists rank).length_counts size) fun rank inside => by
      simpa [RankMap.counts] using small rank inside
  have moved := settles_exchange_packed (fun rank => (lists rank).concat size)
    (fun rank => (lists rank).counts size)
    (fun rank => (List.range size).map fun source => ((lists source).counts size).getD rank 0)
    tags.data (fun rank _ => (lists rank).length_counts size) (by simp)
    (fun rank _ => Nat.le_of_eq ((lists rank).length_concat size).symm)
    (fun source inside target within => by simp [List.getD_eq_getElem?_getD, inside, within])
  have accepted : ∀ rank < size,
      (lists rank).keys.forM (Topology.mk rank size).checkRank = .ok () := fun rank inside =>
    forM_eq_ok_iff.2 fun target member => if_pos (addressed rank inside target member)
  refine .of_eq (fun rank inside => by
    unfold exchangeByRank
    simp only [Communicator.topology_member inside, accepted rank inside,
      Collective.ofExcept_ok_bind]
    exact rfl) ?_
  refine Collective.settles_bind_ok counted (Collective.settles_bind_ok moved
    (Collective.settles_bind_ok (Collective.settles_log _ _) ?_))
  exact (Settles.done _).congr (fun _ _ => rfl)
    fun rank inside => congrArg Except.ok (ofParts_delivered inside)

end exchangeByRank

end Group
end HaloVector
