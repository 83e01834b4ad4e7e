import Mathlib.Data.List.GetD
import HaloVector.Proofs.Bounds
import HaloVector.Proofs.FirstFaults

/-!
# Reception

Lists by rank travel in two rounds, and the first one says what the second one will be. A rank
takes neither from its peers on trust: a count has to be eight bytes, and what follows has to be
as long as was announced.

* `conducts_exchange_packed` and `conducts_exchangeCounts` give the transcript of one round and
  what it comes to.
* `Reception` says which answers a rank accepts, what it makes of them, and what it reports else.
* `exchangeByRank_accepts`: so it is over any transport.

Announced counts are added up as numbers. On a machine this is so as long as the sums, in elements
and in bytes, fit a word.
-/

namespace HaloVector

/-! ## Elements -/

variable (c : Communicator)

variable {c} in
/-- In cells, without fault, each part is what its rank has contributed. -/
theorem encodeAll_part_tally {α : Type} [Cell α] [LawfulCell α] {sent buffer : Bytes}
    {outgoing incoming : Layout} {reply : Nat → Option Bytes}
    (sends : outgoing.check "all-to-all send layout" c.topology.size sent.length = .ok ())
    (receives : (incoming.scale (Cell.width α)).check "all-to-all recv layout" c.topology.size
      buffer.length = .ok ())
    (apart : ∀ one < c.topology.size, ∀ other < c.topology.size, one ≠ other →
      incoming.Apart one other)
    (full : buffer.length = incoming.extent * Cell.width α)
    (passed : (tally c sent outgoing buffer (incoming.scale (Cell.width α)) reply).outcome = .ok ())
    (rank : Nat) (inside : rank < c.topology.size) (some' : 0 < incoming.count rank) :
    Cell.encodeAll (incoming.part (Cell.decodeAll incoming.extent
        (tally c sent outgoing buffer (incoming.scale (Cell.width α)) reply).state : List α) rank) =
      contribution c sent outgoing reply rank := by
  have wide : 0 < Cell.width α := LawfulCell.width_pos
  rw [← Layout.part_encodeAll, Cell.encodeAll_decodeAll _ _
    ((length_state_tally sends receives).trans full)]
  refine part_tally sends receives (fun one here other there distinct =>
    (apart one here other there distinct).scale _) passed inside ?_
  rw [Layout.count_scale]
  exact Nat.mul_pos some' wide

/-- A packed exchange of cells ends well exactly if each peer that was to send some has sent as
many, and then these are in the place of the peer. -/
theorem conducts_exchange_packed {α : Type} [Cell α] [LawfulCell α] {sent : List α}
    {outgoing : Layout} {counts : List Nat} (tag : Tag)
    (sends : outgoing.check "all-to-all send layout" c.topology.size sent.length = .ok ())
    (whole : counts.length = c.topology.size)
    (equal : outgoing.count c.topology.rank = counts.getD c.topology.rank 0) :
    let me := c.topology.rank
    let incoming := Layout.packed counts
    let senders := incoming.nonempty c.topology.peers
    let length (peer : Nat) := counts.getD peer 0 * Cell.width α
    (exchange c sent outgoing incoming tag).run.Conducts fun uses outcome => ∃ answers : Answers,
      uses = roundUses senders (outgoing.nonempty c.topology.peers) tag length
        (fun peer => Cell.encodeAll (outgoing.part sent peer)) answers ∧
      Judged outcome length answers.reply senders ∧
      ∀ received, outcome = .ok received → received.length = totalCount counts ∧
        (0 < counts.getD me 0 → incoming.part received me = outgoing.part sent me) ∧
        ∀ peer ∈ senders,
          answers.reply peer = some (Cell.encodeAll (incoming.part received peer)) := by
  intro me incoming senders length
  let width := Cell.width α
  have wide : 0 < width := LawfulCell.width_pos
  have fits := checkLayouts_scale sends
    (Layout.check_packed whole (Nat.le_of_eq (Layout.extent_packed counts).symm))
  obtain ⟨sends, receives⟩ := checkLayouts_eq_ok_iff.1 fits
  have equal : (outgoing.scale width).count me = (incoming.scale width).count me := by
    rw [Layout.count_scale, Layout.count_scale, equal]
    rfl
  have apart : ∀ one < c.topology.size, ∀ other < c.topology.size, one ≠ other →
      incoming.Apart one other := fun _ here _ there distinct =>
    Layout.packed_apart distinct (whole ▸ here) (whole ▸ there)
  have named : (incoming.scale width).nonempty c.topology.peers = senders :=
    Layout.nonempty_scale wide ..
  rw [Guarded.exchange_run]
  refine (conducts_exchangeBytes c tag fits).bind ?_
  rintro _ _ ⟨answers, rfl, rfl⟩
  refine ⟨answers, ?_, ?_, fun received came => ?_⟩
  · rw [List.append_nil, named, Layout.nonempty_scale wide]
    exact roundUses_congr (fun peer _ => Layout.count_scale ..)
      (fun peer _ => Layout.part_encodeAll ..) answers
  · rw [← named]
    exact ((judged_tally equal).map _).congr fun peer _ => Layout.count_scale ..
  · obtain ⟨⟨⟩, passed, rfl⟩ := map_eq_ok_iff.1 came
    have parts := encodeAll_part_tally (α := α) sends receives apart List.length_replicate passed
    refine ⟨(Cell.length_decodeAll _ _).trans (Layout.extent_packed counts), fun some' => ?_,
      fun peer member => ?_⟩
    · refine Cell.encodeAll_injective ((parts me c.isMember_topology some').trans ?_)
      rw [contribution_self, Layout.part_encodeAll]
    · obtain ⟨inside, away, some'⟩ := Group.mem_nonempty_peers.1 member
      obtain ⟨data, answered, -⟩ := whole_iff.1
        ((tally_eq_ok_iff.1 passed).2 peer (named.symm ▸ member))
      rw [parts peer inside some', contribution_of_ne away, answered]
      rfl

/-! ## Counts -/

/-- The number that a peer has announced, least significant byte first. -/
def announced (reply : Option Bytes) : Nat := ofLittleEndian (reply.getD [])

/-- A count in eight bytes is the number that these are. -/
theorem toNat_of_encodeAll {cell : UInt64} {reply : Option Bytes}
    (came : reply = some (Cell.encodeAll [cell])) : cell.toNat = announced reply := by
  have small := cell.toNat_lt
  have bytes : Cell.encode cell = littleEndian 8 cell.toNat := rfl
  rw [announced, came, Option.getD_some, Cell.encodeAll_cons, Cell.encodeAll_nil, List.append_nil,
    bytes, ofLittleEndian_littleEndian]
  exact (Nat.mod_eq_of_lt (by simpa [byteRange] using small)).symm

theorem getD_ones {size rank : Nat} (inside : rank < size) :
    (List.replicate size 1).getD rank 0 = 1 := by
  simp [List.getD_eq_getElem?_getD, inside]

/-- Every peer has something to send if each has one element. -/
theorem nonempty_ones (t : Topology) :
    (Layout.packed (List.replicate t.size 1)).nonempty t.peers = t.peers := by
  refine List.filter_eq_self.2 fun peer member => ?_
  rw [Layout.packed_count, getD_ones (Topology.mem_peers.1 member).1]
  rfl

theorem getElem_map_eq_getD {α : Type} {f : Nat → α} {counts : List Nat} {rank : Nat}
    (inside : rank < (counts.map f).length) : (counts.map f)[rank] = f (counts.getD rank 0) := by
  rw [List.getElem_map, List.getD_eq_getElem]

theorem getD_map_eq_getElem {α : Type} {f : α → Nat} {cells : List α} {rank : Nat}
    (inside : rank < cells.length) : (cells.map f).getD rank 0 = f cells[rank] := by
  rw [List.getD_eq_getElem _ _ (by simpa using inside), List.getElem_map]

/-- A round of counts ends well exactly if each peer has sent eight bytes, and then the counts are
what the peers have announced. -/
theorem conducts_exchangeCounts {counts : List Nat} (tag : Tag)
    (seated : c.size = c.topology.size) (whole : counts.length = c.size)
    (small : counts.getD c.topology.rank 0 ≤ lastIndex) :
    let me := c.topology.rank
    let peers := c.topology.peers
    (exchangeCounts c counts tag).run.Conducts fun uses outcome => ∃ answers : Answers,
      uses = roundUses peers peers tag (fun _ => 8)
        (fun peer => Cell.encode (UInt64.ofNat (counts.getD peer 0))) answers ∧
      Judged outcome (fun _ => 8) answers.reply peers ∧
      ∀ received, outcome = .ok received → received.length = c.topology.size ∧
        received.getD me 0 = counts.getD me 0 ∧
        ∀ peer ∈ peers, received.getD peer 0 = announced (answers.reply peer) := by
  intro me peers
  have inside : me < c.topology.size := c.isMember_topology
  let ones := List.replicate c.topology.size 1
  have everyone : (Layout.packed ones).nonempty peers = peers := nonempty_ones c.topology
  have sent : (counts.map UInt64.ofNat).length = c.topology.size := by
    rw [List.length_map, whole, seated]
  have moved : (exchange c (counts.map UInt64.ofNat) (.packed ones) (.packed ones)
      tag).run.Conducts _ := conducts_exchange_packed c tag
    (Layout.check_packed List.length_replicate (by simp [ones, sent])) List.length_replicate rfl
  unfold exchangeCounts
  rw [if_neg (not_not_intro whole), seated, Layout.uniform_eq_packed]
  refine Collective.conducts_bind_quiet (moved.mono ?_) fun _ => ⟨rfl, rfl⟩
  rintro _ outcome ⟨answers, rfl, judged, taken⟩
  refine ⟨answers, ?_, ?_, fun received came => ?_⟩
  · rw [everyone]
    refine roundUses_congr (fun peer member => ?_) (fun peer member => ?_) answers
    · rw [getD_ones (Topology.mem_peers.1 member).1]
      rfl
    · have within := (Topology.mem_peers.1 member).1
      rw [Layout.part_ones sent within, Cell.encodeAll_cons, Cell.encodeAll_nil, List.append_nil,
        getElem_map_eq_getD]
  · rw [everyone] at judged
    refine (judged.map _).congr fun peer member => ?_
    rw [getD_ones (Topology.mem_peers.1 member).1]
    rfl
  · obtain ⟨cells, rfl, rfl⟩ := map_eq_ok_iff.1 came
    obtain ⟨full, own, others⟩ := taken cells rfl
    rw [totalCount_replicate, Nat.mul_one] at full
    refine ⟨(List.length_map _).trans full, ?_, fun peer member => ?_⟩
    · have same := own (Nat.lt_of_lt_of_eq Nat.zero_lt_one (getD_ones inside).symm)
      rw [Layout.part_ones full inside, Layout.part_ones sent inside, getElem_map_eq_getD] at same
      have here : me < cells.length := full.symm ▸ inside
      rw [getD_map_eq_getElem here, List.head_eq_of_cons_eq same]
      exact UInt64.toNat_ofNat_of_lt' (Nat.lt_succ_of_le small)
    · have within := (Topology.mem_peers.1 member).1
      have came := others peer (everyone.symm ▸ member)
      rw [Layout.part_ones full within] at came
      rw [getD_map_eq_getElem (full.symm ▸ within)]
      exact toNat_of_encodeAll came

/-! ## Lists -/

section lists

variable {α : Type}

/-- Each peer has sent a count of eight bytes. -/
def Counted (counting : Answers) : Prop :=
  ∀ peer ∈ c.topology.peers, Whole 8 (counting.reply peer)

instance (counting : Answers) : Decidable (Counted c counting) :=
  inferInstanceAs (Decidable (∀ peer ∈ _, _))

/-- The peers that have announced something. -/
def announcers (counting : Answers) : List Nat :=
  c.topology.peers.filter fun peer => 0 < announced (counting.reply peer)

theorem mem_announcers {counting : Answers} {peer : Nat} :
    peer ∈ announcers c counting ↔ peer < c.topology.size ∧ peer ≠ c.topology.rank ∧
      0 < announced (counting.reply peer) := by
  rw [announcers, List.mem_filter, Topology.mem_peers, decide_eq_true_iff, and_assoc]

variable (lists : RankMap (List α)) (tags : ExchangeTags)

/-- Counts as the peers have announced them, and that of the own list. -/
structure Learned (counting : Answers) (counts : List Nat) : Prop where
  length_eq : counts.length = c.topology.size
  own : counts.getD c.topology.rank 0 = (lists.listOf c.topology.rank).length
  each : ∀ peer ∈ c.topology.peers, counts.getD peer 0 = announced (counting.reply peer)

variable {c lists} in
theorem Learned.nonempty_eq {counting : Answers} {counts : List Nat}
    (learned : Learned c lists counting counts) :
    (Layout.packed counts).nonempty c.topology.peers = announcers c counting :=
  List.filter_congr fun peer member => by rw [Layout.packed_count, learned.each peer member]

/-- The uses that make up the round of counts. Every peer is told one and is asked for one. -/
def countUses (counting : Answers) : List Use :=
  roundUses c.topology.peers c.topology.peers tags.sizes (fun _ => 8)
    (fun peer => Cell.encode (UInt64.ofNat (lists.listOf peer).length)) counting

theorem roundUses_counts (counting : Answers) :
    roundUses c.topology.peers c.topology.peers tags.sizes (fun _ => 8) (fun peer =>
        Cell.encode (UInt64.ofNat ((lists.counts c.topology.size).getD peer 0))) counting =
      countUses c lists tags counting :=
  roundUses_congr (fun _ _ => rfl) (fun peer member => by
    rw [lists.getD_counts (Topology.mem_peers.1 member).1]) counting

variable [Cell α]

/-- The uses that make up the round of elements. Who has announced some is asked for them, and
each list that is not empty is sent. -/
def elementUses (counting moving : Answers) : List Use :=
  roundUses (announcers c counting)
    (c.topology.peers.filter fun peer => 0 < (lists.listOf peer).length) tags.data
    (fun peer => announced (counting.reply peer) * Cell.width α)
    (fun peer => Cell.encodeAll (lists.listOf peer)) moving

variable {c lists} in
theorem Learned.roundUses_elements {counting : Answers} {counts : List Nat}
    (learned : Learned c lists counting counts) (moving : Answers) :
    roundUses (announcers c counting)
        ((Layout.packed (lists.counts c.topology.size)).nonempty c.topology.peers) tags.data
        (fun peer => counts.getD peer 0 * Cell.width α)
        (fun peer => Cell.encodeAll ((Layout.packed (lists.counts c.topology.size)).part
          (lists.concat c.topology.size) peer)) moving =
      elementUses c lists tags counting moving := by
  have targets : (Layout.packed (lists.counts c.topology.size)).nonempty c.topology.peers =
      c.topology.peers.filter fun peer => 0 < (lists.listOf peer).length :=
    List.filter_congr fun peer member => by
      rw [Layout.packed_count, lists.getD_counts (Topology.mem_peers.1 member).1]
  rw [targets]
  refine roundUses_congr (fun peer member => ?_) (fun peer member => ?_) moving
  · rw [learned.each peer (List.mem_of_mem_filter member)]
  · rw [Group.part_concat (Topology.mem_peers.1 (List.mem_of_mem_filter member)).1]

/-- What comes of the answers in the two rounds of an exchange of lists by rank. -/
structure Reception (uses : List Use) (outcome : Except VectorError (RankMap (List α)))
    (counting moving : Answers) : Prop where
  /-- There is a second round only if the first one went well. -/
  uses_eq : uses = countUses c lists tags counting ++
    if Counted c counting then elementUses c lists tags counting moving else []
  /-- Accepted are exactly eight bytes from each peer, and then as many as were announced. -/
  ok_iff : (∃ received, outcome = .ok received) ↔ Counted c counting ∧
    ∀ peer ∈ announcers c counting,
      Whole (announced (counting.reply peer) * Cell.width α) (moving.reply peer)
  /-- Else the lowest faulty peer of the first round with a fault is reported. -/
  error_iff : ∀ e, outcome = .error e ↔
    LowestFault (fun _ => 8) counting.reply c.topology.peers e ∨
    (Counted c counting ∧ LowestFault (fun peer => announced (counting.reply peer) * Cell.width α)
      moving.reply (announcers c counting) e)
  /-- There is a list of each peer that has announced something, and the own one if there is
  anything in it. -/
  getElem?_eq : ∀ received, outcome = .ok received → ∀ rank, received[rank]? =
    if rank ∈ announcers c counting then
      some (Cell.decodeAll (announced (counting.reply rank)) ((moving.reply rank).getD []))
    else if rank = c.topology.rank ∧ lists.listOf rank ≠ [] then some (lists.listOf rank)
    else none

variable {c lists tags} {counting moving : Answers} {counts : List Nat}

/-- A fault of a count is the end. -/
theorem reception_of_miscount {e : VectorError}
    (judged : Judged (.error e : Except VectorError (RankMap (List α))) (fun _ => 8)
      counting.reply c.topology.peers) :
    Reception c lists tags (countUses c lists tags counting) (.error e) counting moving := by
  have faulty : ¬Counted c counting := fun counted => by
    obtain ⟨_, ⟨⟩⟩ := judged.ok_iff.2 counted
  exact {
    uses_eq := by rw [if_neg faulty, List.append_nil]
    ok_iff := ⟨nofun, fun passed => absurd passed.1 faulty⟩
    error_iff := fun other =>
      (judged.error_iff other).trans (or_iff_left fun later => faulty later.1).symm
    getElem?_eq := nofun }

variable [LawfulCell α]

/-- The buffer is taken apart as the peers have announced. -/
theorem Learned.getElem?_ofParts (learned : Learned c lists counting counts) {buffer : List α}
    (full : buffer.length = totalCount counts)
    (mine : 0 < counts.getD c.topology.rank 0 →
      (Layout.packed counts).part buffer c.topology.rank = lists.listOf c.topology.rank)
    (others : ∀ peer ∈ announcers c counting,
      moving.reply peer = some (Cell.encodeAll ((Layout.packed counts).part buffer peer)))
    (rank : Nat) :
    (RankMap.ofParts (.packed counts) buffer c.topology.size)[rank]? =
      if rank ∈ announcers c counting then
        some (Cell.decodeAll (announced (counting.reply rank)) ((moving.reply rank).getD []))
      else if rank = c.topology.rank ∧ lists.listOf rank ≠ [] then some (lists.listOf rank)
      else none := by
  rw [RankMap.getElem?_ofParts, Layout.packed_count]
  by_cases self : rank = c.topology.rank
  · -- the own list has come without a message
    subst self
    have absent : c.topology.rank ∉ announcers c counting :=
      fun member => ((mem_announcers c).1 member).2.1 rfl
    rw [if_neg absent]
    by_cases some' : 0 < counts.getD c.topology.rank 0
    · rw [if_pos ⟨c.isMember_topology, some'⟩, mine some',
        if_pos ⟨rfl, List.ne_nil_of_length_pos (learned.own ▸ some')⟩]
    · rw [if_neg fun present => some' present.2, if_neg]
      rintro ⟨-, present⟩
      exact some' (learned.own ▸ List.length_pos_of_ne_nil present)
  · by_cases member : rank ∈ announcers c counting
    · obtain ⟨inside, away, some'⟩ := (mem_announcers c).1 member
      have count := learned.each rank (Topology.mem_peers.2 ⟨inside, away⟩)
      have length : ((Layout.packed counts).part buffer rank).length =
          announced (counting.reply rank) := by
        rw [Layout.length_part (full ▸ Layout.packed_fits (learned.length_eq.symm ▸ inside)),
          Layout.packed_count, count]
      rw [if_pos ⟨inside, count ▸ some'⟩, if_pos member, others rank member, Option.getD_some,
        ← length, Cell.decodeAll_encodeAll]
    · rw [if_neg member, if_neg (fun mine => self mine.1 : ¬(_ ∧ lists.listOf rank ≠ [])), if_neg]
      rintro ⟨inside, some'⟩
      rw [learned.each rank (Topology.mem_peers.2 ⟨inside, self⟩)] at some'
      exact member ((mem_announcers c).2 ⟨inside, self, some'⟩)

/-- After the counts the elements decide. -/
theorem reception_of_counted (counted : Counted c counting)
    (learned : Learned c lists counting counts) {outcome : Except VectorError (List α)}
    (judged : Judged outcome (fun peer => counts.getD peer 0 * Cell.width α) moving.reply
      (announcers c counting))
    (taken : ∀ received, outcome = .ok received → received.length = totalCount counts ∧
      (0 < counts.getD c.topology.rank 0 →
        (Layout.packed counts).part received c.topology.rank = lists.listOf c.topology.rank) ∧
      ∀ peer ∈ announcers c counting,
        moving.reply peer = some (Cell.encodeAll ((Layout.packed counts).part received peer))) :
    Reception c lists tags
      (countUses c lists tags counting ++ elementUses c lists tags counting moving)
      (outcome.map (RankMap.ofParts (.packed counts) · c.topology.size)) counting moving := by
  have final := (judged.map (RankMap.ofParts (.packed counts) · c.topology.size)).congr
    fun peer member => by rw [learned.each peer (List.mem_of_mem_filter member)]
  exact {
    uses_eq := by rw [if_pos counted]
    ok_iff := final.ok_iff.trans (and_iff_right counted).symm
    error_iff := fun e => by
      rw [final.error_iff, and_iff_right counted]
      exact (or_iff_right fun ⟨peer, member, fault, _⟩ =>
        fault.not_whole (counted peer member)).symm
    getElem?_eq := fun received came => by
      obtain ⟨buffer, rfl, rfl⟩ := map_eq_ok_iff.1 came
      obtain ⟨full, mine, others⟩ := taken buffer rfl
      exact learned.getElem?_ofParts full mine others }

variable (c lists tags)

theorem conducts_exchangeByRank (seated : c.size = c.topology.size)
    (addressed : ∀ target ∈ lists.keys, target < c.size)
    (short : (lists.listOf c.topology.rank).length ≤ lastIndex) :
    (exchangeByRank c lists tags).run.Conducts fun uses outcome =>
      ∃ counting moving, Reception c lists tags uses outcome counting moving := by
  have inside := c.isMember_topology
  have accepted : lists.keys.forM c.topology.checkRank = .ok () :=
    forM_eq_ok_iff.2 fun target member => if_pos (seated ▸ addressed target member)
  have self := lists.getD_counts inside
  unfold exchangeByRank
  simp only [accepted, Collective.ofExcept_ok_bind]
  refine Collective.conducts_bind (conducts_exchangeCounts c tags.sizes seated
    ((lists.length_counts _).trans seated.symm) (self.symm ▸ short)) ?_ ?_
  · rintro _ e ⟨counting, rfl, judged, -⟩
    exact ⟨counting, counting, roundUses_counts c lists tags counting ▸
      reception_of_miscount (judged.map fun _ => ∅)⟩
  · rintro _ counts ⟨counting, rfl, judged, known⟩
    have counted : Counted c counting := judged.ok_iff.1 ⟨counts, rfl⟩
    obtain ⟨whole, own, each⟩ := known counts rfl
    have learned : Learned c lists counting counts := ⟨whole, own.trans self, each⟩
    refine Collective.conducts_bind_quiet ((conducts_exchange_packed c tags.data
      (Layout.check_packed (lists.length_counts _) (Nat.le_of_eq (lists.length_concat _).symm))
      whole own.symm).mono ?_) fun _ => ⟨rfl, rfl⟩
    rintro _ outcome ⟨moving, rfl, judged, taken⟩
    rw [learned.nonempty_eq] at judged taken ⊢
    rw [Group.part_concat inside] at taken
    refine ⟨counting, moving, ?_⟩
    have uses := congrArg₂ (· ++ ·) (roundUses_counts c lists tags counting)
      (learned.roundUses_elements tags moving)
    exact uses ▸ reception_of_counted counted learned judged taken

end lists

/-- The middle one of three ranks keeps an element and has two for the last rank. -/
def middleLists : RankMap (List UInt16) :=
  .ofList ([(1, [7]), (2, [8, 9])] : List (Nat × List UInt16))

/-- The first rank announces two elements and sends them. -/
def twoFromFirst (countOfLast : Bytes) : Script :=
  let tags : ExchangeTags := default
  .ofReplies [⟨0, tags.sizes, some [2, 0, 0, 0, 0, 0, 0, 0]⟩, ⟨2, tags.sizes, some countOfLast⟩,
    ⟨0, tags.data, some [1, 0, 2, 0]⟩]

end HaloVector
