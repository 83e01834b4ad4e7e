import HaloVector.Assembly
import HaloVector.Proofs.Delivery
import HaloVector.Proofs.Ownership

/-!
# Routing

What an assembly does with updates on their way from a queue to an entry, one rank
at a time.

* `updatesByOwner_eq` sorts the updates of a rank by owner: a `share` for each.
* `readReceived_eq` reads what the others sent. It is all there in order of rank
  (`arrivals`), unless `inspect` finds something among it that belongs elsewhere.
* `exists_appliedToOwned` applies updates. Each owned entry becomes the fold of those that name it,
  and what follows the owned entries is out of reach (`getElem?_applyToOwned?_of_le`).
-/

namespace HaloVector

/-! ## Sorting by owner -/

theorem updatesByOwner_eq {e : Extents} {updates : List Update}
    (known : ∀ update ∈ updates, update.id < e.globalSize) :
    updatesByOwner e updates = .ok (shares e Update.id updates) := by
  have owned : updates.mapM (fun update => do
      pure (← e.findOwner update.id, update) : Update → Except VectorError (Nat × Update)) =
      .ok (updates.map fun update => (e.ownerOf update.id, update)) := by
    refine mapM_eq_ok fun update member => ?_
    rw [Extents.findOwner_eq (known update member)]
    rfl
  unfold updatesByOwner
  rw [owned]
  rfl

/-- Only updates of entries that there are can be sorted. -/
theorem known_of_updatesByOwner {e : Extents} {updates : List Update}
    {byOwner : RankMap (List Update)} (sorted : updatesByOwner e updates = .ok byOwner) :
    ∀ update ∈ updates, update.id < e.globalSize := by
  intro update member
  obtain ⟨_, owned, -⟩ := bind_eq_ok_iff.1 sorted
  obtain ⟨_, -, found⟩ := exists_of_mapM_eq_ok owned member
  obtain ⟨_, found, -⟩ := bind_eq_ok_iff.1 found
  exact Extents.lt_globalSize_of_findOwner found

/-- A rank applies its own updates first, and then those that came in. -/
theorem map_snd_listOf_shares {e : Extents} {updates : List Update}
    (known : ∀ update ∈ updates, update.id < e.globalSize) (rank : Nat)
    (incoming : List (Nat × Update)) :
    (((shares e Update.id updates).listOf rank).map (rank, ·) ++ incoming).map Prod.snd =
      share e Update.id updates rank ++ incoming.map Prod.snd := by
  rw [listOf_shares known, List.map_append, List.map_map]
  exact congrArg (· ++ _) (List.map_id _)

/-! ## Reading -/

section reading

/-- Refuses updates of entries that are not owned, from the first on. -/
def inspect (me : Nat) (own : IdRange) (received : List (Nat × Update)) :
    Except VectorError (List (Nat × Update)) :=
  match received.find? (!own.contains ·.2.id) with
  | some (source, foreign) =>
    .error (.foreignAssemblyTarget me source foreign.id own.start own.stop)
  | none => .ok received

theorem inspect_eq_ok {me : Nat} {own : IdRange} {received passed : List (Nat × Update)}
    (accepted : inspect me own received = .ok passed) :
    passed = received ∧ ∀ item ∈ received, own.contains item.2.id := by
  unfold inspect at accepted
  split at accepted
  · cases accepted
  · rename_i none_foreign
    cases accepted
    exact ⟨rfl, by simpa using List.find?_eq_none.1 none_foreign⟩

theorem inspect_of_held {me : Nat} {own : IdRange} {received : List (Nat × Update)}
    (held : ∀ item ∈ received, own.contains item.2.id) :
    inspect me own received = .ok received := by
  have none_foreign : received.find? (!own.contains ·.2.id) = none :=
    List.find?_eq_none.2 fun item member => by simp [held item member]
  unfold inspect
  rw [none_foreign]

theorem readRecords_eq_ok {me source : Nat} {own : IdRange} {bytes : Bytes}
    {updates : List Update} (read : readRecords me own source bytes = .ok updates) :
    Update.decodeAll? bytes = some updates ∧ ∀ update ∈ updates, own.contains update.id := by
  unfold readRecords at read
  split at read
  · cases read
  · rename_i decoded whole
    split at read
    · cases read
    · rename_i none_foreign
      cases read
      exact ⟨whole, by simpa using List.find?_eq_none.1 none_foreign⟩

/-- Every update that is read was in the records of its source, and is for this rank. -/
theorem readReceived_eq_ok {me : Nat} {own : IdRange} {received : RankMap Bytes}
    {incoming : List (Nat × Update)} (read : readReceived me own received = .ok incoming) :
    ∀ item ∈ incoming, own.contains item.2.id ∧ ∃ bytes updates,
      received[item.1]? = some bytes ∧ Update.decodeAll? bytes = some updates ∧
        item.2 ∈ updates := by
  intro item member
  obtain ⟨batches, passed, same⟩ := bind_eq_ok_iff.1 read
  cases same
  obtain ⟨batch, present, inBatch⟩ := List.mem_flatten.1 member
  obtain ⟨⟨source, bytes⟩, held, passed⟩ := exists_mem_of_mapM_eq_ok passed present
  obtain ⟨updates, records, same⟩ := bind_eq_ok_iff.1 passed
  cases same
  obtain ⟨update, queued, rfl⟩ := List.mem_map.1 inBatch
  obtain ⟨decoded, mine⟩ := readRecords_eq_ok records
  exact ⟨mine update queued, bytes, updates,
    Std.ExtTreeMap.mem_toList_iff_getElem?_eq_some.1 held, decoded, queued⟩

theorem inspect_append (me : Nat) (own : IdRange) (front back : List (Nat × Update)) :
    inspect me own (front ++ back) =
      inspect me own front >>= fun first =>
        inspect me own back >>= fun second => pure (first ++ second) := by
  unfold inspect
  rw [List.find?_append]
  cases front.find? (!own.contains ·.2.id) with
  | some foreign => rfl
  | none => cases back.find? (!own.contains ·.2.id) <;> rfl

variable (size : Nat) (extents : Nat → Extents) (updates : Nat → List Update)

/-- The updates that reach a rank from the others, with their sources. -/
def arrivals (owner : Nat) : List (Nat × Update) :=
  (Topology.mk owner size).peers.flatMap fun source =>
    (share (extents source) Update.id (updates source) owner).map (source, ·)

/-- What a rank sends to each of the others. -/
def parcels (rank : Nat) : RankMap Bytes :=
  ((shares (extents rank) Update.id (updates rank)).erase rank).map fun _ => Update.encodeAll

variable {size extents updates}

theorem decodeAll?_encodeAll (batch : List Update) :
    Update.decodeAll? (Update.encodeAll batch) = some batch := by
  have whole : (Update.encodeAll batch).length = batch.length * Update.recordSize :=
    Cell.length_encodeAll batch
  unfold Update.decodeAll?
  rw [whole, Nat.mul_mod_left, if_pos rfl, Nat.mul_div_cancel batch.length (by decide)]
  exact congrArg some (Cell.decodeAll_encodeAll batch)

theorem readRecords_encodeAll (me : Nat) (own : IdRange) (source : Nat) (batch : List Update) :
    (readRecords me own source (Update.encodeAll batch) >>= fun updates =>
      pure (updates.map (source, ·))) = inspect me own (batch.map (source, ·)) := by
  have foreign : (batch.map (source, ·)).find? (!own.contains ·.2.id) =
      (batch.find? (!own.contains ·.id)).map (source, ·) := List.find?_map
  unfold readRecords inspect
  rw [decodeAll?_encodeAll, foreign]
  dsimp only
  cases batch.find? (!own.contains ·.id) <;> rfl

theorem mapM_inspect (me : Nat) (own : IdRange) (batch : Nat → List (Nat × Update))
    (sources : List Nat) :
    (sources.mapM (fun source => inspect me own (batch source)) >>= fun batches =>
      pure batches.flatten) = inspect me own (sources.flatMap batch) := by
  induction sources with
  | nil => rfl
  | cons source rest ih =>
    rw [List.flatMap_cons, inspect_append, ← ih, List.mapM_cons]
    simp only [bind_assoc, pure_bind, List.flatten_cons]

theorem encodeAll_eq_nil {batch : List Update}
    (nothing : (Update.encodeAll batch).length = 0) : batch = [] := by
  have whole : (Update.encodeAll batch).length = batch.length * Update.recordSize :=
    Cell.length_encodeAll batch
  rw [nothing] at whole
  exact List.eq_nil_of_length_eq_zero ((Nat.mul_eq_zero.1 whole.symm).resolve_right (by decide))

theorem listOf_parcels {source : Nat}
    (known : ∀ update ∈ updates source, update.id < (extents source).globalSize) (owner : Nat) :
    (parcels extents updates source).listOf owner =
      if source = owner then []
      else Update.encodeAll (share (extents source) Update.id (updates source) owner) := by
  rw [parcels, listOf_map rfl, RankMap.listOf, Std.ExtTreeMap.getElem?_erase]
  by_cases same : source = owner
  · simp [same, Update.encodeAll]
  · simp only [Nat.compare_eq_eq, same, if_false]
    exact congrArg Update.encodeAll (listOf_shares known owner)

theorem lt_of_mem_parcels {source : Nat}
    (known : ∀ update ∈ updates source, update.id < (extents source).globalSize)
    {target : Nat} (member : target ∈ (parcels extents updates source).keys) :
    target < (extents source).numRanks := by
  rw [Std.ExtTreeMap.mem_keys, parcels, Std.ExtTreeMap.mem_map, Std.ExtTreeMap.mem_erase] at member
  exact lt_numRanks_of_shares known (Std.ExtTreeMap.mem_keys.2 member.2)

theorem length_parcels_le {source : Nat}
    (known : ∀ update ∈ updates source, update.id < (extents source).globalSize) (target : Nat) :
    ((parcels extents updates source).listOf target).length ≤
      (updates source).length * Update.recordSize := by
  rw [listOf_parcels known]
  split
  · exact Nat.zero_le _
  · show (Cell.encodeAll _).length ≤ _
    rw [Cell.length_encodeAll]
    exact Nat.mul_le_mul_right _ (List.length_filter_le _ _)

/-- A rank reads exactly what the others have for it, unless it is not all for it. -/
theorem readReceived_eq (owner : Nat)
    (known : ∀ rank < size, ∀ update ∈ updates rank, update.id < (extents rank).globalSize) :
    readReceived owner ((extents owner).rangeAt owner)
        (Group.mailFor size (parcels extents updates) owner) =
      inspect owner ((extents owner).rangeAt owner) (arrivals size extents updates owner) := by
  let batch (source : Nat) :=
    (share (extents source) Update.id (updates source) owner).map (source, ·)
  let sources := (List.range size).filter fun source =>
    0 < ((parcels extents updates source).listOf owner).length
  have senders : ∀ source ∈ sources, source < size ∧ source ≠ owner := by
    intro source member
    obtain ⟨present, some'⟩ := List.mem_filter.1 member
    have inside := List.mem_range.1 present
    refine ⟨inside, fun same => ?_⟩
    rw [listOf_parcels (known source inside), if_pos same] at some'
    cases some'
  have silent : ∀ source ∈ (Topology.mk owner size).peers,
      ¬0 < ((parcels extents updates source).listOf owner).length → batch source = [] := by
    intro source peer nothing
    obtain ⟨inside, other⟩ := Topology.mem_peers.1 peer
    rw [listOf_parcels (known source inside), if_neg other] at nothing
    exact List.map_eq_nil_iff.2 (encodeAll_eq_nil (Nat.eq_zero_of_not_pos nothing))
  have everything : sources.flatMap batch = arrivals size extents updates owner := by
    have peers : sources = (Topology.mk owner size).peers.filter fun source =>
        0 < ((parcels extents updates source).listOf owner).length := by
      rw [Topology.peers, Topology.ranks, List.filter_filter]
      refine List.filter_congr fun source present => ?_
      by_cases sends : 0 < ((parcels extents updates source).listOf owner).length
      · have other := (senders source (List.mem_filter.2 ⟨present, decide_eq_true sends⟩)).2
        simp [sends, other]
      · simp [sends]
    rw [peers, flatMap_filter fun source peer nothing =>
      silent source peer (of_decide_eq_false nothing)]
    rfl
  unfold readReceived
  rw [Group.toList_mailFor, List.mapM_map, ← everything, ← mapM_inspect]
  congr 1
  refine mapM_congr_left fun source member => ?_
  obtain ⟨inside, other⟩ := senders source member
  rw [← readRecords_encodeAll]
  show (readRecords owner _ source ((parcels extents updates source).listOf owner) >>= _) = _
  rw [listOf_parcels (known source inside), if_neg other]

end reading

/-! ## Applying -/

/-- Updates neither add nor remove entries. -/
theorem length_applyUpdates? {mode : QueueMode} {own : IdRange} {values applied : List Scalar}
    {updates : List Update} (ran : applyUpdates? mode own values updates = some applied) :
    applied.length = values.length := by
  induction updates generalizing values with
  | nil =>
    cases ran
    rfl
  | cons update rest ih =>
    obtain ⟨old, -, ran⟩ := Option.bind_eq_some_iff.1 ran
    exact (ih ran).trans List.length_set

/-- Updates change no places but their own. -/
theorem getElem?_applyUpdates?_of_ne {mode : QueueMode} {own : IdRange}
    {values applied : List Scalar} {updates : List Update}
    (ran : applyUpdates? mode own values updates = some applied) {index : Nat}
    (apart : ∀ update ∈ updates, own.offset update.id ≠ index) :
    applied[index]? = values[index]? := by
  induction updates generalizing values with
  | nil =>
    cases ran
    rfl
  | cons update rest ih =>
    obtain ⟨here, later⟩ := List.forall_mem_cons.1 apart
    obtain ⟨old, -, ran⟩ := Option.bind_eq_some_iff.1 ran
    rw [ih ran later, List.getElem?_set_ne here]

/-- Each entry becomes the fold of the updates that name it, from left to right. -/
theorem exists_applied (mode : QueueMode) {own : IdRange} {values : List Scalar}
    {updates : List Update} (room : own.length ≤ values.length)
    (held : ∀ update ∈ updates, own.contains update.id) :
    ∃ applied, applyUpdates? mode own values updates = some applied ∧
      ∀ id, own.contains id → applied[own.offset id]? = values[own.offset id]?.map fun old =>
        (updates.filter (·.id = id)).foldl (fun value update => mode.apply value update.value)
          old := by
  induction updates generalizing values with
  | nil => exact ⟨values, rfl, fun id _ => by simp⟩
  | cons update rest ih =>
    obtain ⟨here, later⟩ := List.forall_mem_cons.1 held
    have inside : own.offset update.id < values.length :=
      Nat.lt_of_lt_of_le (IdRange.offset_lt here) room
    let changed := values.set (own.offset update.id)
      (mode.apply values[own.offset update.id] update.value)
    have roomy : own.length ≤ changed.length := by
      rwa [List.length_set]
    obtain ⟨applied, ran, entries⟩ := ih roomy later
    refine ⟨applied, ?_, fun id mine => ?_⟩
    · rw [applyUpdates?, List.getElem?_eq_getElem inside]
      exact ran
    · rw [entries id mine]
      by_cases same : update.id = id
      · subst same
        simp [changed, inside]
      · have apart : own.offset update.id ≠ own.offset id :=
          fun place => same ((IdRange.offset_inj here mine).1 place)
        simp [changed, same, List.getElem?_set_ne apart]

/-! ## Owned entries -/

/-- Up to the cut a buffer with a new front is that front, and after it what it was before. -/
theorem getElem?_append_drop {α : Type} {front values : List α} {cut : Nat}
    (fits : front.length = (values.take cut).length) (index : Nat) :
    (front ++ values.drop cut)[index]? = if index < cut then front[index]? else values[index]? := by
  rw [List.length_take] at fits
  by_cases before : index < cut
  · rw [if_pos before]
    by_cases short : values.length ≤ cut
    · rw [List.drop_eq_nil_of_le short, List.append_nil]
    · exact List.getElem?_append_left (by omega)
  · rw [if_neg before, List.getElem?_append_right (by omega), List.getElem?_drop]
    by_cases short : values.length ≤ cut
    · rw [List.getElem?_eq_none (by omega), List.getElem?_eq_none (by omega)]
    · congr 1
      omega

section owned

variable {mode : QueueMode} {own : IdRange} {values applied : List Scalar} {updates : List Update}

theorem exists_front (ran : applyToOwned? mode own values updates = some applied) :
    ∃ front, applyUpdates? mode own (values.take own.length) updates = some front ∧
      front.length = (values.take own.length).length ∧
      applied = front ++ values.drop own.length := by
  obtain ⟨front, ran, same⟩ := Option.bind_eq_some_iff.1 ran
  exact ⟨front, ran, length_applyUpdates? ran, (Option.some.inj same).symm⟩

theorem length_applyToOwned? (ran : applyToOwned? mode own values updates = some applied) :
    applied.length = values.length := by
  obtain ⟨front, -, fits, rfl⟩ := exists_front ran
  rw [List.length_append, fits, ← List.length_append, List.take_append_drop]

/-- Whatever the updates are, what follows the owned entries stays as it is. -/
theorem getElem?_applyToOwned?_of_le (ran : applyToOwned? mode own values updates = some applied)
    {index : Nat} (far : own.length ≤ index) : applied[index]? = values[index]? := by
  obtain ⟨front, -, fits, rfl⟩ := exists_front ran
  rw [getElem?_append_drop fits, if_neg (Nat.not_lt.2 far)]

theorem getElem?_applyToOwned?_of_ne (ran : applyToOwned? mode own values updates = some applied)
    {index : Nat} (apart : ∀ update ∈ updates, own.offset update.id ≠ index) :
    applied[index]? = values[index]? := by
  by_cases near : index < own.length
  · obtain ⟨front, changed, fits, rfl⟩ := exists_front ran
    rw [getElem?_append_drop fits, if_pos near, getElem?_applyUpdates?_of_ne changed apart,
      List.getElem?_take_of_lt near]
  · exact getElem?_applyToOwned?_of_le ran (Nat.not_lt.1 near)

theorem exists_appliedToOwned (mode : QueueMode) (room : own.length ≤ values.length)
    (held : ∀ update ∈ updates, own.contains update.id) :
    ∃ applied, applyToOwned? mode own values updates = some applied ∧
      ∀ id, own.contains id → applied[own.offset id]? = values[own.offset id]?.map fun old =>
        (updates.filter (·.id = id)).foldl (fun value update => mode.apply value update.value)
          old := by
  have whole : own.length ≤ (values.take own.length).length :=
    Nat.le_of_eq (List.length_take_of_le room).symm
  obtain ⟨front, ran, entries⟩ := exists_applied mode whole held
  refine ⟨front ++ values.drop own.length, ?_, fun id mine => ?_⟩
  · rw [applyToOwned?, ran]
    rfl
  · have near := IdRange.offset_lt mine
    rw [getElem?_append_drop (length_applyUpdates? ran), if_pos near, entries id mine,
      List.getElem?_take_of_lt near]

end owned

end HaloVector
