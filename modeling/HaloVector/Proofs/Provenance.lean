import HaloVector.Proofs.FirstFaults

/-!
# Provenance

What is left to rely on in an exchange over any transport: all that is taken over was delivered by
the source that it is taken for. The transcript of the exchange shows it.

* `Exchanged` says what a buffer is after an exchange without fault, and `ensures_exchangeBytes`
  that it is so.
* `ensures_exchangeByRank` says where the lists come from that come by rank.
* `ensures_agreeOnOutcome`: no peer has a say in what a rank goes on with.
-/

namespace HaloVector

/-! ## Deliveries of a transcript -/

/-- What was delivered with the use, if it was a wait. -/
def Use.deliveries : Use → Deliveries
  | awaited ticket reply => reply.toList.map (ticket, ·)
  | _ => []

/-- What is known of the transcript is known of the deliveries in it. -/
theorem Program.Conducts.ensures {α : Type} {p : Program α} {good : Deliveries → α → Prop}
    (conducted : p.Conducts fun uses => good (uses.flatMap Use.deliveries)) : p.Ensures good := by
  induction p generalizing good with
  | done value => exact conducted
  | halt why => exact conducted
  | log level text next ih => exact ih conducted
  | post source tag length next ih => exact fun number => ih _ (conducted number)
  | send target tag data next ih => exact ih conducted
  | await ticket next ih => exact fun reply => ih _ (conducted reply)
  | flush target tag next ih => exact ih conducted

theorem mem_roundUses {sources targets : List Nat} {tag : Tag} {length : Nat → Nat}
    {data : Nat → Bytes} {answers : Answers} {peer : Nat} (member : peer ∈ sources) :
    .awaited ⟨peer, tag, answers.number peer⟩ (answers.reply peer) ∈
      roundUses sources targets tag length data answers :=
  List.mem_append_left _ (List.mem_append_right _ (List.mem_map.2 ⟨peer, member, rfl⟩))

theorem has_of_awaited {uses : List Use} {ticket : Ticket} {reply : Option Bytes}
    {message : Bytes} (member : .awaited ticket reply ∈ uses) (answered : reply = some message) :
    Deliveries.Has (uses.flatMap Use.deliveries) ticket.source ticket.tag message := by
  subst answered
  exact ⟨ticket, List.mem_flatMap.2 ⟨_, member, List.mem_singleton_self _⟩, rfl, rfl⟩

/-! ## Bytes -/

section exchange

variable (c : Communicator)

/-- A buffer as an exchange without fault leaves it. On what was there lie the rank's own part
and what its peers sent, each as long as its part is. -/
def Exchanged (sent : Bytes) (outgoing : Layout) (buffer : Bytes) (incoming : Layout) (tag : Tag)
    (delivered : Deliveries) (received : Bytes) : Prop :=
  incoming.check "all-to-all recv layout" c.topology.size buffer.length = .ok () ∧
  ∃ data : Nat → Bytes,
    received = incoming.writeParts data
      (Group.contributors c.topology.size incoming c.topology.rank) buffer ∧
    data c.topology.rank = outgoing.part sent c.topology.rank ∧
    ∀ source ∈ Group.contributors c.topology.size incoming c.topology.rank,
      (data source).length = incoming.count source ∧
      (source ≠ c.topology.rank → delivered.Has source tag (data source))

theorem ensures_exchangeBytes (sent : Bytes) (outgoing : Layout) (buffer : Bytes)
    (incoming : Layout) (tag : Tag) :
    (exchangeBytes c sent outgoing buffer incoming tag).Ensures fun delivered received =>
      received.outcome = .ok () →
        Exchanged c sent outgoing buffer incoming tag delivered received.state := by
  cases fitting : checkLayouts c.topology.size sent outgoing buffer incoming with
  | error refusal =>
    rw [exchangeBytes_refused c _ _ _ _ tag fitting]
    exact nofun
  | ok =>
    refine ((conducts_exchangeBytes c tag fitting).mono ?_).ensures
    rintro _ _ ⟨answers, rfl, rfl⟩ passed
    obtain ⟨sends, receives⟩ := checkLayouts_eq_ok_iff.1 fitting
    obtain ⟨equal, whole⟩ := tally_eq_ok_iff.1 passed
    have taken := takenOver_of_whole equal whole
    refine ⟨receives, contribution c sent outgoing answers.reply, taken ▸ state_tally,
      contribution_self, fun source member => ⟨?_, fun away => ?_⟩⟩
    · exact (sized_of_takenOver sends (taken ▸ member)).2
    · have peer := (List.mem_cons.1 member).resolve_left away
      obtain ⟨message, answered, -⟩ := whole_iff.1 (whole source peer)
      rw [contribution_of_ne away, answered]
      exact has_of_awaited (mem_roundUses peer) answered

section Exchanged

variable {c} {sent buffer received : Bytes} {outgoing incoming : Layout} {tag : Tag}
  {delivered : Deliveries}

theorem Exchanged.length
    (exchanged : Exchanged c sent outgoing buffer incoming tag delivered received) :
    received.length = buffer.length := by
  obtain ⟨receives, data, rfl, -, each⟩ := exchanged
  exact Layout.length_writeParts (fun source member => (each source member).1) fun source member =>
    Layout.fits_of_check receives (Group.lt_of_mem_contributors c.isMember_topology member)

/-- If no two parts overlap, each of them is what its source sent. -/
theorem Exchanged.part
    (exchanged : Exchanged c sent outgoing buffer incoming tag delivered received)
    (apart : ∀ one < c.topology.size, ∀ other < c.topology.size, one ≠ other →
      incoming.Apart one other)
    {source : Nat} (inside : source < c.topology.size) (some' : 0 < incoming.count source) :
    (source = c.topology.rank ∧ incoming.part received source = outgoing.part sent source) ∨
      delivered.Has source tag (incoming.part received source) := by
  obtain ⟨receives, data, rfl, own, each⟩ := exchanged
  have within : ∀ other ∈ Group.contributors c.topology.size incoming c.topology.rank,
      other < c.topology.size := fun _ => Group.lt_of_mem_contributors c.isMember_topology
  have member : source ∈ Group.contributors c.topology.size incoming c.topology.rank :=
    Group.mem_contributors_of_pos inside some'
  rw [Layout.part_writeParts (fun other member => (each other member).1)
    (fun other member => Layout.fits_of_check receives (within other member))
    (fun other member => apart other (within other member) source inside), if_pos member]
  by_cases mine : source = c.topology.rank
  · exact .inl ⟨mine, by rw [mine, own]⟩
  · exact .inr ((each source member).2 mine)

end Exchanged

/-- A buffer for what is received is as long as the layout says, whatever comes. -/
theorem ensures_exchange {α : Type} [Cell α] (sent : List α)
    (outgoing incoming : Layout) (tag : Tag) :
    (exchange c sent outgoing incoming tag).Ensures fun _ received =>
      received.length = incoming.extent :=
  (Collective.ensures_ofAttempt (ensures_exchangeBytes ..)).bind fun _ _ _ =>
    Collective.ensures_pure (Cell.length_decodeAll _ _)

/-- In a packed buffer each part is what its source sent. -/
theorem ensures_exchange_packed {α : Type} [Cell α] [LawfulCell α] (sent : List α)
    (outgoing : Layout) (counts : List Nat) (tag : Tag) :
    (exchange c sent outgoing (.packed counts) tag).Ensures fun delivered received =>
      counts.length = c.topology.size ∧ received.length = totalCount counts ∧
      ∀ source < c.topology.size, 0 < counts.getD source 0 →
        (source = c.topology.rank ∧
          (Layout.packed counts).part received source = outgoing.part sent source) ∨
        delivered.Has source tag
          (Cell.encodeAll ((Layout.packed counts).part received source)) := by
  refine (Collective.ensures_ofAttempt (ensures_exchangeBytes ..)).bind fun _ bytes exchanged => ?_
  refine Collective.ensures_pure ?_
  rw [List.append_nil]
  have whole : counts.length = c.topology.size :=
    (List.length_map _).symm.trans (Layout.check_eq_ok_iff.1 exchanged.1).1
  refine ⟨whole, (Cell.length_decodeAll _ _).trans (Layout.extent_packed counts),
    fun source inside some' => ?_⟩
  have wide : 0 < Cell.width α := LawfulCell.width_pos
  have apart : ∀ one < c.topology.size, ∀ other < c.topology.size, one ≠ other →
      ((Layout.packed counts).scale (Cell.width α)).Apart one other :=
    fun _ here _ there distinct =>
      (Layout.packed_apart distinct (whole ▸ here) (whole ▸ there)).scale _
  have came := exchanged.part apart inside (by
    rw [Layout.count_scale]
    exact Nat.mul_pos some' wide)
  -- the bytes are those of the cells that are read from them
  rw [← Cell.encodeAll_decodeAll (α := α) _ bytes (exchanged.length.trans List.length_replicate),
    Layout.part_encodeAll, Layout.part_encodeAll] at came
  exact came.imp_left fun ⟨mine, same⟩ => ⟨mine, Cell.encodeAll_injective same⟩

/-! ## Counts and lists -/

theorem ensures_exchangeCounts (counts : List Nat) (tag : Tag) :
    (exchangeCounts c counts tag).Ensures fun _ received => received.length = c.size := by
  unfold exchangeCounts
  split
  · exact Collective.ensures_throw _
  · refine (ensures_exchange ..).bind fun _ received whole => ?_
    rw [Layout.uniform_eq_packed, Layout.extent_packed, totalCount_replicate, Nat.mul_one] at whole
    exact Collective.ensures_pure ((List.length_map _).trans whole)

/-- Each list that comes back is that of a rank of the group. It is the rank's own or one message
of its source. -/
theorem ensures_exchangeByRank {α : Type} [Cell α] [LawfulCell α] (lists : RankMap (List α))
    (tags : ExchangeTags) :
    (exchangeByRank c lists tags).Ensures fun delivered received =>
      ∀ source list, received[source]? = some list → source < c.topology.size ∧
        ((source = c.topology.rank ∧ list = lists.listOf source) ∨
          delivered.Has source tags.data (Cell.encodeAll list)) := by
  unfold exchangeByRank
  refine (Collective.ensures_ofExcept _).bind ?_
  rintro _ _ ⟨rfl, -⟩
  refine (ensures_exchangeCounts ..).bind fun front counts _ => ?_
  refine (ensures_exchange_packed ..).bind fun middle buffer ⟨whole, _, parts⟩ => ?_
  refine (Collective.ensures_log _ _).bind ?_
  rintro _ _ rfl
  refine Collective.ensures_pure fun source list found => ?_
  rw [RankMap.getElem?_ofParts, Option.ite_none_right_eq_some] at found
  obtain ⟨⟨inside, some'⟩, same⟩ := found
  cases same
  refine ⟨inside, ?_⟩
  rcases parts source inside some' with ⟨mine, same⟩ | came
  · exact .inl ⟨mine, same.trans (Group.part_concat inside)⟩
  · exact .inr (came.mono (by simp))

/-! ## Agreements -/

theorem ensures_gather {α : Type} [Cell α] (value : α) :
    (gather c value).Ensures fun _ values => values.length = c.size := by
  refine (Collective.ensures_ofAttempt (ensures_exchangeBytes ..)).bind fun _ received _ => ?_
  exact Collective.ensures_pure (Cell.length_decodeAll _ _)

theorem ensures_agreeOnMode (mode : QueueMode) : (agreeOnMode c mode).Ensures fun _ _ => True :=
  (ensures_gather c mode.code).bind fun _ _ _ =>
    (Collective.ensures_ofExcept _).mono fun _ _ _ => trivial

/-- No peer can make a rank go on with anything but its own outcome. -/
theorem ensures_agreeOnOutcome {α : Type} (outcome : Except VectorError α) (operation : String) :
    (agreeOnOutcome c outcome operation).Ensures fun _ value => outcome = .ok value := by
  refine (ensures_gather c (statusCode outcome)).bind fun _ statuses _ => ?_
  cases outcome with
  | error e => exact Collective.ensures_throw e
  | ok value =>
    dsimp only
    split
    · exact Collective.ensures_pure rfl
    · exact (Collective.ensures_log _ _).bind fun _ _ _ => Collective.ensures_throw _

end exchange

end HaloVector
