import Mathlib.Data.List.Destutter
import HaloVector.Proofs.GroupAssembly

/-!
# Conflicting sets

An assembly warns where a set of one rank follows a set of another on the same entry. Only the last
rank to set each entry is kept in mind for that, while the updates of many entries come by. But the
updates of a rank come one after the other, so for each entry the ranks that set it come in blocks
(`destutter_flatMap_replicate`), and there is one warning for each change from block to block
(`filter_conflicts_flatMap`).

`VectorPart.set_conflicts_are_warned` says so of an assembly on a group: every owner warns of all
conflicts on its entries, and of nothing else, and the last of these warnings names the rank whose
value stays. A warning names the entry and both ranks in words, and the words tell which ones are
meant (`Conflict.text_injective`).
-/

namespace HaloVector

/-- The conflicts of ranks that set an entry one after the other. -/
def Conflict.chain (id : UInt64) (ranks : List Nat) : List Conflict :=
  List.zipWith (Conflict.mk id) ranks ranks.tail

theorem Conflict.length_chain (id : UInt64) (ranks : List Nat) :
    (Conflict.chain id ranks).length = ranks.length - 1 := by
  rw [Conflict.chain, List.length_zipWith, List.length_tail]
  omega

theorem Conflict.later_of_getLast?_chain {id : UInt64} {ranks : List Nat} {x : Conflict}
    (last : (Conflict.chain id ranks).getLast? = some x) : ranks.getLast? = some x.later := by
  induction ranks with
  | nil => cases last
  | cons first rest ih =>
    cases rest with
    | nil => cases last
    | cons second rest =>
      rw [List.getLast?_cons_cons]
      cases rest with
      | nil =>
        cases last
        rfl
      | cons third rest => exact ih last

/-! ## Blocks -/

section blocks

variable {α : Type} [DecidableEq α]

theorem exists_destutter'_eq_cons (first : α) (items : List α) :
    ∃ rest, items.destutter' (· ≠ ·) first = first :: rest := by
  induction items with
  | nil => exact ⟨[], rfl⟩
  | cons item rest ih =>
    by_cases same : first = item
    · rwa [List.destutter'_cons_neg _ (not_not_intro same)]
    · exact ⟨_, List.destutter'_cons_pos _ same⟩

theorem destutter'_replicate_append (item : α) (count : Nat) (rest : List α) :
    (List.replicate count item ++ rest).destutter' (· ≠ ·) item =
      rest.destutter' (· ≠ ·) item := by
  induction count with
  | zero => rfl
  | succ count ih =>
    rw [List.replicate_succ, List.cons_append, List.destutter'_cons_neg _ (not_not_intro rfl), ih]

theorem destutter'_flatMap_replicate (count : α → Nat) {first : α} {items : List α}
    (distinct : (first :: items).Nodup) :
    (items.flatMap fun item => List.replicate (count item) item).destutter' (· ≠ ·) first =
      first :: items.filter (count · ≠ 0) := by
  induction items generalizing first with
  | nil => rfl
  | cons item rest ih =>
    obtain ⟨fresh, later⟩ := List.nodup_cons.1 distinct
    rw [List.flatMap_cons]
    cases times : count item with
    | zero =>
      rw [List.filter_cons_of_neg (by simpa using times)]
      exact ih (List.nodup_cons.2 ⟨fun member => fresh (List.mem_cons_of_mem _ member),
        (List.nodup_cons.1 later).2⟩)
    | succ more =>
      have changed : first ≠ item := fun same => fresh (same ▸ List.mem_cons_self)
      rw [List.replicate_succ, List.cons_append, List.destutter'_cons_pos _ changed,
        destutter'_replicate_append, ih later, List.filter_cons_of_pos (by simp [times])]

/-- Blocks of distinct items leave each item once, unless its block is empty. -/
theorem destutter_flatMap_replicate (count : α → Nat) {items : List α} (distinct : items.Nodup) :
    (items.flatMap fun item => List.replicate (count item) item).destutter (· ≠ ·) =
      items.filter (count · ≠ 0) := by
  induction items with
  | nil => rfl
  | cons item rest ih =>
    rw [List.flatMap_cons]
    cases times : count item with
    | zero =>
      rw [List.filter_cons_of_neg (by simpa using times)]
      exact ih (List.nodup_cons.1 distinct).2
    | succ more =>
      rw [List.replicate_succ, List.cons_append, List.destutter_cons',
        destutter'_replicate_append, destutter'_flatMap_replicate count distinct,
        List.filter_cons_of_pos (by simp [times])]

end blocks

theorem Conflict.chain_cons_destutter' (id : UInt64) (earlier first : Nat) (ranks : List Nat) :
    Conflict.chain id (earlier :: ranks.destutter' (· ≠ ·) first) =
      ⟨id, earlier, first⟩ :: Conflict.chain id (ranks.destutter' (· ≠ ·) first) := by
  obtain ⟨rest, starts⟩ := exists_destutter'_eq_cons first ranks
  rw [starts]
  rfl

/-- The sources of the updates for one entry. -/
def writers (id : UInt64) (updates : List (Nat × Update)) : List Nat :=
  (updates.filter fun (item : Nat × Update) => item.2.id = id).map Prod.fst

/-- For each entry the conflicts are where the rank that sets it changes. -/
theorem filter_conflictsAfter (id : UInt64) (last : Std.ExtTreeMap UInt64 Nat)
    (updates : List (Nat × Update)) :
    (conflictsAfter last updates).filter (·.id = id) =
      Conflict.chain id ((last[id]?.toList ++ writers id updates).destutter (· ≠ ·)) := by
  induction updates generalizing last with
  | nil => cases last[id]? <;> rfl
  | cons item rest ih =>
    obtain ⟨rank, update⟩ := item
    have later := ih (last.insert update.id rank)
    by_cases mine : update.id = id
    case neg =>
      -- what is written for another entry changes nothing for this one
      have kept : (last.insert update.id rank)[id]? = last[id]? := by
        rw [Std.ExtTreeMap.getElem?_insert, if_neg (by simpa using mine)]
      rw [kept] at later
      have others : writers id ((rank, update) :: rest) = writers id rest :=
        congrArg (List.map Prod.fst) (List.filter_cons_of_neg (by simpa using mine))
      rw [others, ← later, conflictsAfter]
      split
      · split
        · rfl
        · rw [List.filter_cons_of_neg (by simpa using mine)]
      · rfl
    subst mine
    have set : (last.insert update.id rank)[update.id]? = some rank := by simp
    rw [set] at later
    have first : writers update.id ((rank, update) :: rest) = rank :: writers update.id rest :=
      congrArg (List.map Prod.fst) (List.filter_cons_of_pos (by simp))
    rw [first, conflictsAfter]
    generalize writers update.id rest = ranks at later
    cases known : last[update.id]? with
    | none => exact later
    | some earlier =>
      show _ = Conflict.chain update.id ((rank :: ranks).destutter' _ earlier)
      dsimp only
      split
      · next same =>
        subst same
        rw [List.destutter'_cons_neg _ (not_not_intro rfl)]
        exact later
      · next changed =>
        rw [List.destutter'_cons_pos _ changed, List.filter_cons_of_pos (by simp), later]
        exact (Conflict.chain_cons_destutter' ..).symm

/-- If the updates come rank by rank, the conflicts for an entry are those of the ranks that have
an update for it. -/
theorem filter_conflicts_flatMap {sources : List Nat} (distinct : sources.Nodup)
    (batch : Nat → List Update) (id : UInt64) :
    (conflicts .set (sources.flatMap fun source => (batch source).map (source, ·))).filter
        (·.id = id) =
      Conflict.chain id (sources.filter fun source => (batch source).any (·.id = id)) := by
  have blocks : writers id (sources.flatMap fun source => (batch source).map (source, ·)) =
      sources.flatMap fun source =>
        List.replicate ((batch source).filter (·.id = id)).length source := by
    rw [writers, List.filter_flatMap, List.map_flatMap]
    refine List.flatMap_congr fun source _ => ?_
    rw [List.filter_map, List.map_map]
    exact List.map_const' ..
  rw [conflicts, if_pos rfl, filter_conflictsAfter, blocks]
  show Conflict.chain id (List.destutter _ ([] ++ _)) = _
  rw [List.nil_append, destutter_flatMap_replicate _ distinct]
  congr 1
  refine List.filter_congr fun source _ => ?_
  rw [Bool.eq_iff_iff]
  simp

/-- Conflicts are about entries for which there are updates. -/
theorem id_of_mem_conflictsAfter {last : Std.ExtTreeMap UInt64 Nat} {updates : List (Nat × Update)}
    {x : Conflict} (member : x ∈ conflictsAfter last updates) :
    ∃ item ∈ updates, item.2.id = x.id := by
  induction updates generalizing last with
  | nil => cases member
  | cons item rest ih =>
    have later (there : x ∈ conflictsAfter (last.insert item.2.id item.1) rest) :
        ∃ other ∈ item :: rest, other.2.id = x.id := by
      obtain ⟨other, present, same⟩ := ih there
      exact ⟨other, List.mem_cons_of_mem _ present, same⟩
    rw [conflictsAfter] at member
    split at member
    · split at member
      · exact later member
      · rcases List.mem_cons.1 member with rfl | member
        · exact ⟨item, List.mem_cons_self, rfl⟩
        · exact later member
    · exact later member

/-! ## The text of a warning -/

/-- A number ends where something comes that is no digit. -/
theorem digits_append_inj {one other : Nat} {separator : Char} {left right : List Char}
    (ends : separator.isDigit = false)
    (same : (toString one).toList ++ separator :: left =
      (toString other).toList ++ separator :: right) : one = other ∧ left = right := by
  have digits (n : Nat) : (toString n).toList = Nat.toDigits 10 n := Nat.toList_repr
  have cut (n : Nat) (rest : List Char) :
      (Nat.toDigits 10 n ++ separator :: rest).takeWhile Char.isDigit = Nat.toDigits 10 n := by
    rw [List.takeWhile_append_of_pos fun c => Nat.isDigit_of_mem_toDigits (by decide) (by decide),
      List.takeWhile_cons_of_neg (by simp [ends]), List.append_nil]
  rw [digits, digits] at same
  have number : Nat.toDigits 10 one = Nat.toDigits 10 other := by
    rw [← cut one left, same, cut]
  rw [number] at same
  refine ⟨?_, (List.cons.inj (List.append_cancel_left same)).2⟩
  rw [← @Nat.ofDigitChars_ten_toDigits one, number, Nat.ofDigitChars_ten_toDigits]

theorem Conflict.text_eq (x : Conflict) :
    x.text = "global id " ++ toString x.id ++ " set by both rank " ++ toString x.earlier ++
      " and rank " ++ toString x.later ++ "; rank " ++ toString x.later ++ " wins" := rfl

/-- A warning says which entry and which ranks it is about. -/
theorem Conflict.text_injective : Function.Injective Conflict.text := by
  have shape (x : Conflict) : x.text.toList =
      "global id ".toList ++ ((toString x.id.toNat).toList ++ ' ' ::
        ("set by both rank ".toList ++ ((toString x.earlier).toList ++ ' ' ::
          ("and rank ".toList ++ ((toString x.later).toList ++ ';' ::
            (" rank ".toList ++ (toString x.later).toList ++ " wins".toList)))))) := by
    have digits : toString x.id = toString x.id.toNat := rfl
    rw [Conflict.text_eq, digits]
    simp [String.toList_append]
  intro one other same
  have letters := congrArg String.toList same
  rw [shape, shape] at letters
  obtain ⟨id, rest⟩ := digits_append_inj (by decide) (List.append_cancel_left letters)
  obtain ⟨earlier, rest⟩ := digits_append_inj (by decide) (List.append_cancel_left rest)
  obtain ⟨later, -⟩ := digits_append_inj (by decide) (List.append_cancel_left rest)
  cases one
  cases other
  rw [Conflict.mk.injEq]
  exact ⟨UInt64.toNat_inj.1 id, earlier, later⟩

namespace VectorPart

variable {size rank : Nat} {e : Extents} {tags : AssemblyTags} {parts : Nat → VectorPart}

/-- The part has a set queued for this id. -/
def hasSet (v : VectorPart) (id : UInt64) : Bool := v.shard.queue.sets.any (·.id = id)

/-- The ranks that have a set queued for an id of `owner`: first the owner itself, then the others
by rank. -/
def setters (size : Nat) (parts : Nat → VectorPart) (owner : Nat) (id : UInt64) : List Nat :=
  (owner :: (Topology.mk owner size).peers).filter fun rank => (parts rank).hasSet id

/-- What a rank applies, with the sources, in this order. -/
def dueFrom (size : Nat) (parts : Nat → VectorPart) (rank : Nat) : List (Nat × Update) :=
  (rank :: (Topology.mk rank size).peers).flatMap fun source =>
    (share (parts source).shard.extents Update.id
      (parts source).shard.queue.drained.updates rank).map (source, ·)

section group

variable (filled : ∀ rank < size, (parts rank).Filled size rank e tags)
  (small : ∀ rank < size, (parts rank).shard.queue.Addressable) (agree : AgreeOnMode size parts)

include filled small agree

/-- What a rank warns of is what it finds among its updates. -/
theorem warnings_delivered (inside : rank < size) :
    Delivery.warnings rank (Group.deliveredTo size (fun rank => (parts rank).shard.extents)
      (fun rank => (parts rank).shard.values)
      (fun rank => (parts rank).shard.queue.drained) rank).toOption.join =
    (conflicts (groupModeOf size parts) (dueFrom size parts rank)).map Conflict.text := by
  have entering := ready filled small
  unfold Group.deliveredTo
  rw [groupMode_eq_ok (agreeOnMode_iff.1 agree)]
  show Delivery.warnings rank
    (Except.toOption (if groupModeOf size parts = .empty then _ else _)).join = _
  by_cases nothing : groupModeOf size parts = .empty
  · rw [if_pos nothing, nothing]
    rfl
  · rw [if_neg nothing, Group.agreed_ok (fun rank within =>
      (entering.checked_eq within).trans (inspected_eq filled within)) inside]
    show (conflicts _ (Delivery.all _ rank)).map _ = _
    rw [Delivery.all, listOf_shares (entering.known rank inside)]
    rfl

theorem warns_assembleQueued :
    Group.Warns size
      (fun rank => DistributedVector.assembleQueued (parts rank) (.member rank size))
      (afterAssembly size parts) fun rank =>
        (conflicts (groupModeOf size parts) (dueFrom size parts rank)).map Conflict.text := by
  have entering := ready filled small
  have warned : Group.Warns size _ (Group.checkedTo size (fun rank => (parts rank).shard.extents)
      (fun rank => (parts rank).shard.values) fun rank => (parts rank).shard.queue.drained) _ :=
    Group.warns_assembleDrained entering.addressed tags
  have assembled := (warned.map fun rank => (parts rank).shard.assembled).map fun rank =>
    DistributedVector.withAttempt (parts rank)
  refine assembled.congr (fun rank inside => ?_) (fun rank inside => ?_)
    fun rank => warnings_delivered filled small agree
  · show _ = Program.bind ((parts rank).shard.assemble _) _
    rw [Shard.assemble_member inside (filled rank inside).topology, (filled rank inside).tags]
    rfl
  · rw [entering.checkedTo_eq inside]
    rfl

end group

/-! ## One entry -/

theorem nodup_sources (owner size : Nat) : (owner :: (Topology.mk owner size).peers).Nodup :=
  List.nodup_cons.2 ⟨fun member => (Topology.mem_peers.1 member).2 rfl,
    List.nodup_range.filter _⟩

theorem lt_of_mem_sources {owner source : Nat} (inside : owner < size)
    (member : source ∈ owner :: (Topology.mk owner size).peers) : source < size := by
  rcases List.mem_cons.1 member with rfl | peer
  · exact inside
  · exact (Topology.mem_peers.1 peer).1

theorem length_setters {owner : Nat} (inside : owner < size) (id : UInt64) :
    (setters size parts owner id).length =
      (List.range size).countP fun rank => (parts rank).hasSet id := by
  rw [setters, ← List.countP_eq_length_filter]
  refine List.Perm.countP_eq _ ((List.perm_ext_iff_of_nodup (nodup_sources owner size)
    List.nodup_range).2 fun source => ?_)
  rw [List.mem_range]
  refine ⟨lt_of_mem_sources inside, fun within => ?_⟩
  by_cases own : source = owner
  · exact own ▸ List.mem_cons_self
  · exact List.mem_cons_of_mem _ (Topology.mem_peers.2 ⟨within, own⟩)

theorem groupModeOf_ne_set (unset : ∀ rank < size, (parts rank).shard.mode ≠ .set) :
    groupModeOf size parts ≠ .set := by
  intro setting
  rcases QueueMode.foldl_max_mem
    (Group.modesOf size fun rank => (parts rank).shard.queue.drained) .empty with none' | present
  · cases setting.symm.trans none'
  · obtain ⟨setter, within, mode⟩ := mem_modesOf.1 present
    exact unset setter within (mode.trans setting)

/-- The last set is what stays. -/
theorem afterOperations_sets (old : Scalar) (updates : List Update) :
    afterOperations old (updates.map (.set, ·)) = (updates.getLast?.map Update.value).getD old := by
  induction updates generalizing old with
  | nil => rfl
  | cons first rest ih =>
    show afterOperations first.value (rest.map (.set, ·)) = _
    rw [ih]
    cases rest with
    | nil => rfl
    | cons second rest =>
      rw [List.getLast?_cons_cons]
      cases last : (second :: rest).getLast? with
      | none => exact absurd (List.getLast?_eq_none_iff.1 last) (List.cons_ne_nil _ _)
      | some update => rfl

/-- The last of several batches is that of the last source that has any. -/
theorem getLast?_flatMap_of_filter {α β : Type} {batch : α → List β} {has : α → Bool}
    (nothing : ∀ source, has source = false → batch source = [])
    {sources : List α} {winner : α} {last : β} (won : (sources.filter has).getLast? = some winner)
    (found : (batch winner).getLast? = some last) :
    (sources.flatMap batch).getLast? = some last := by
  induction sources using List.reverseRecOn with
  | nil => cases won
  | append_singleton init source ih =>
    rw [List.flatMap_append, List.flatMap_singleton]
    rw [List.filter_append] at won
    cases here : has source with
    | false =>
      rw [List.filter_cons_of_neg (by simp [here]), List.filter_nil, List.append_nil] at won
      rw [nothing source here, List.append_nil]
      exact ih won
    | true =>
      rw [List.filter_cons_of_pos here, List.filter_nil, List.getLast?_concat] at won
      cases won
      rw [List.getLast?_append, found]
      rfl

section entry

variable (filled : ∀ rank < size, (parts rank).Filled size rank e tags)
  (agree : AgreeOnMode size parts)

include filled agree

theorem operationsOn_of_set (setting : groupModeOf size parts = .set) (inside : rank < size)
    (id : UInt64) :
    operationsOn (parts rank) id =
      ((parts rank).shard.queue.sets.filter (·.id = id)).map (.set, ·) := by
  have unadded : (parts rank).shard.queue.adds = [] := by
    refine List.eq_nil_iff_forall_not_mem.2 fun update member => ?_
    have mode := mode_of_mem_operations filled agree inside
      (List.mem_append_right _ (List.mem_map_of_mem member))
    rw [setting] at mode
    cases mode
  rw [operationsOn, OpQueue.operations, unadded, List.map_nil, List.append_nil, List.filter_map]
  rfl

theorem hasSet_eq_false (adding : groupModeOf size parts ≠ .set) (inside : rank < size)
    (id : UInt64) : (parts rank).hasSet id = false := by
  have unset : (parts rank).shard.queue.sets = [] := by
    refine List.eq_nil_iff_forall_not_mem.2 fun update member => adding ?_
    exact (mode_of_mem_operations filled agree inside
      (List.mem_append_left _ (List.mem_map_of_mem member))).symm
  rw [hasSet, unset]
  rfl

omit agree in
theorem findOwner_of_mem_conflicts (inside : rank < size) {mode : QueueMode} {x : Conflict}
    (member : x ∈ conflicts mode (dueFrom size parts rank)) : e.findOwner x.id = .ok rank := by
  unfold conflicts at member
  split at member
  · obtain ⟨item, due, same⟩ := id_of_mem_conflictsAfter member
    obtain ⟨source, present, due⟩ := List.mem_flatMap.1 due
    obtain ⟨update, sent, rfl⟩ := List.mem_map.1 due
    rw [(filled source (lt_of_mem_sources inside present)).extents] at sent
    exact same ▸ (mem_share.1 sent).2
  · cases member

/-- The conflicts that an owner finds on one of its entries. -/
theorem filter_conflicts_dueFrom (inside : rank < size) {id : UInt64}
    (mine : (e.rangeAt rank).contains id) :
    (conflicts (groupModeOf size parts) (dueFrom size parts rank)).filter (·.id = id) =
      Conflict.chain id (setters size parts rank id) := by
  by_cases setting : groupModeOf size parts = .set
  · rw [setting, dueFrom, filter_conflicts_flatMap (nodup_sources rank size), setters]
    congr 1
    refine List.filter_congr fun source member => ?_
    have within := lt_of_mem_sources inside member
    have sent := filter_share_drained filled agree inside within mine
    rw [operationsOn_of_set filled agree setting within, List.map_map] at sent
    have kept (updates : List Update) : updates.any (·.id = id) =
        (updates.filter (·.id = id)).any (·.id = id) := by simp
    rw [kept, sent, hasSet, kept (parts source).shard.queue.sets]
    exact congrArg (List.any · _) (List.map_id _)
  · have unset : setters size parts rank id = [] :=
      List.filter_eq_nil_iff.2 fun source member has => by
        rw [hasSet_eq_false filled agree setting (lt_of_mem_sources inside member)] at has
        cases has
    rw [conflicts, if_neg setting, unset]
    rfl

/-- What stays is the last value that the last rank to set the entry has queued. -/
theorem afterOperations_of_setters (inside : rank < size) {id : UInt64} {winner : Nat}
    (won : (setters size parts rank id).getLast? = some winner) (old : Scalar) :
    ∃ last, ((parts winner).shard.queue.sets.filter (·.id = id)).getLast? = some last ∧
      afterOperations old (operationsFor size parts rank id) = last.value := by
  obtain ⟨member, has⟩ := List.mem_filter.1 (List.mem_of_getLast? won)
  have setting : groupModeOf size parts = .set := by
    by_contra adding
    rw [hasSet_eq_false filled agree adding (lt_of_mem_sources inside member)] at has
    cases has
  obtain ⟨update, queued, same⟩ := List.any_eq_true.1 has
  have some_left : (parts winner).shard.queue.sets.filter (·.id = id) ≠ [] :=
    List.ne_nil_of_mem (List.mem_filter.2 ⟨queued, same⟩)
  refine ⟨_, List.getLast?_eq_some_getLast some_left, ?_⟩
  have operations : operationsFor size parts rank id =
      ((rank :: (Topology.mk rank size).peers).flatMap fun source =>
        (parts source).shard.queue.sets.filter (·.id = id)).map (.set, ·) := by
    rw [List.map_flatMap]
    exact List.flatMap_congr fun source member =>
      operationsOn_of_set filled agree setting (lt_of_mem_sources inside member) id
  rw [operations, afterOperations_sets,
    getLast?_flatMap_of_filter (fun source none_left => ?_) won
      (List.getLast?_eq_some_getLast some_left)]
  · rfl
  · exact List.filter_eq_nil_iff.2 fun update member same =>
      Bool.false_ne_true (none_left ▸ List.any_eq_true.2 ⟨update, member, same⟩)

end entry

/-- Over equal extents and with queues that go together, every schedule of an assembly ends well on
every rank, and the only warnings are these: for each entry on which `d` ranks have queued a set,
its owner logs `d - 1` of them, one for each two ranks that follow each other in the order of
application. The last one names the rank whose last value stays. Where nobody has queued a set
there is no warning at all. What a warning says is written out, and no two conflicts are warned of
in the same words. -/
theorem set_conflicts_are_warned
    (filled : ∀ rank < size, (parts rank).Filled size rank e tags)
    (small : ∀ rank < size, (parts rank).shard.queue.Addressable)
    (agree : AgreeOnMode size parts) :
    (∀ x : Conflict, x.text =
      "global id " ++ toString x.id ++ " set by both rank " ++ toString x.earlier ++
        " and rank " ++ toString x.later ++ "; rank " ++ toString x.later ++ " wins") ∧
    Function.Injective Conflict.text ∧
    ∃ (after : Nat → VectorPart) (found : Nat → List Conflict),
      Group.Warns size
        (fun rank => DistributedVector.assembleQueued (parts rank) (.member rank size))
        (fun rank => ⟨after rank, .ok ()⟩) (fun rank => (found rank).map Conflict.text) ∧
      ((∀ rank < size, (parts rank).shard.mode ≠ .set) → ∀ rank < size, found rank = []) ∧
      ∀ owner < size, (∀ x ∈ found owner, e.findOwner x.id = .ok owner) ∧
        ∀ id, e.findOwner id = .ok owner →
          (found owner).filter (·.id = id) = Conflict.chain id (setters size parts owner id) ∧
          ((found owner).filter (·.id = id)).length =
            ((List.range size).countP fun rank => (parts rank).hasSet id) - 1 ∧
          ∀ winner, (setters size parts owner id).getLast? = some winner →
            (∃ last, ((parts winner).shard.queue.sets.filter (·.id = id)).getLast? = some last ∧
              (after owner).shard.values[(e.rangeAt owner).offset id]? = some last.value) ∧
            ∀ x, ((found owner).filter (·.id = id)).getLast? = some x → x.later = winner := by
  refine ⟨Conflict.text_eq, Conflict.text_injective,
    fun rank => (afterAssembly size parts rank).state,
    fun rank => conflicts (groupModeOf size parts) (dueFrom size parts rank), ?_, ?_, ?_⟩
  · refine (warns_assembleQueued filled small agree).congr (fun _ _ => rfl)
      (fun rank inside => ?_) fun _ _ => rfl
    obtain ⟨values, came, -, -⟩ := exists_outcome filled small agree inside
    dsimp only
    rw [afterAssembly_ok came]
  · exact fun unset rank _ => if_neg (groupModeOf_ne_set unset)
  · intro owner inside
    refine ⟨fun x => findOwner_of_mem_conflicts filled inside, fun id owned => ?_⟩
    have mine := Extents.contains_rangeAt_of_findOwner owned
    have chained := filter_conflicts_dueFrom filled agree inside mine
    refine ⟨chained, ?_, fun winner won => ⟨?_, fun x last => ?_⟩⟩
    · rw [chained, Conflict.length_chain, length_setters inside]
    · obtain ⟨values, came, -, entries⟩ := exists_outcome filled small agree inside
      obtain ⟨old, -, now⟩ := entries id mine
      obtain ⟨last, queued, stays⟩ := afterOperations_of_setters filled agree inside won old
      refine ⟨last, queued, ?_⟩
      dsimp only
      rw [afterAssembly_ok came, shard_withShard, ← stays]
      exact now
    · rw [chained] at last
      exact Option.some.inj ((Conflict.later_of_getLast?_chain last).symm.trans won)

/-- Three ranks, the second of which owns the entries 1 to 3. -/
def contestedExtents : Extents := ⟨[1, 4, 5], by decide, by decide⟩

/-- All ranks have set entry 2, its owner and the last rank twice. -/
def contestedParts : Nat → VectorPart
  | 0 => plain ⟨⟨0, 3⟩, contestedExtents, [.zero], ⟨[⟨2, .one⟩], [], false⟩, default⟩
  | 1 =>
    plain ⟨⟨1, 3⟩, contestedExtents, [.zero, .zero, .zero],
      ⟨[⟨2, .zero⟩, ⟨3, .one⟩, ⟨2, .one⟩], [], false⟩, default⟩
  | rank =>
    plain ⟨⟨rank, 3⟩, contestedExtents, [.one],
      ⟨[⟨2, .zero⟩, ⟨2, .negInfinity⟩], [], false⟩, default⟩

theorem contested_filled : ∀ rank < 3,
    (contestedParts rank).Filled 3 rank contestedExtents (default : VectorTags).assembly
  | 0, _ => ⟨rfl, rfl, rfl, rfl, ⟨by rintro (_ | _) <;> decide, by rintro (_ | _) <;> decide⟩, rfl⟩
  | 1, _ => ⟨rfl, rfl, rfl, rfl, ⟨by rintro (_ | _) <;> decide, by rintro (_ | _) <;> decide⟩, rfl⟩
  | 2, _ => ⟨rfl, rfl, rfl, rfl, ⟨by rintro (_ | _) <;> decide, by rintro (_ | _) <;> decide⟩, rfl⟩

/-- Only entry 2 is set by more than one rank. -/
theorem countP_contested_le {id : UInt64} (other : id ≠ 2) :
    ((List.range 3).countP fun rank => (contestedParts rank).hasSet id) ≤ 1 := by
  have elsewhere : ∀ rank < 3, rank ≠ 1 → ∀ update ∈ (contestedParts rank).shard.queue.sets,
      update.id = 2 := by decide
  have middle : ∀ rank ∈ List.range 3, (contestedParts rank).hasSet id → decide (rank = 1) := by
    intro rank member has
    obtain ⟨update, queued, same⟩ := List.any_eq_true.1 has
    refine decide_eq_true (by_contra fun apart => other ?_)
    rw [← of_decide_eq_true same]
    exact elsewhere rank (List.mem_range.1 member) apart update queued
  exact (List.countP_mono_left middle).trans (by decide)

theorem set_conflicts_are_warned_contested :
    ∃ after : Nat → VectorPart,
      Group.Warns 3
        (fun rank => DistributedVector.assembleQueued (contestedParts rank) (.member rank 3))
        (fun rank => ⟨after rank, .ok ()⟩) (fun rank =>
          if rank = 1 then
            ["global id 2 set by both rank 1 and rank 0; rank 0 wins",
              "global id 2 set by both rank 0 and rank 2; rank 2 wins"]
          else []) ∧
      (after 1).shard.values[1]? = some .negInfinity := by
  obtain ⟨-, -, after, found, warns, -, owners⟩ := set_conflicts_are_warned contested_filled
    (by decide) (by decide)
  obtain ⟨-, entries⟩ := owners 1 (by decide)
  obtain ⟨chain, -, stays⟩ := entries 2 rfl
  obtain ⟨⟨last, queued, value⟩, -⟩ := stays 2 rfl
  cases queued
  have only : ∀ owner < 3, ∀ x ∈ found owner, x.id = 2 := by
    intro owner inside x member
    obtain ⟨mine, entries⟩ := owners owner inside
    obtain ⟨-, count, -⟩ := entries x.id (mine x member)
    have here : 0 < ((found owner).filter (·.id = x.id)).length :=
      List.length_pos_of_mem (List.mem_filter.2 ⟨member, decide_eq_true rfl⟩)
    by_contra other
    have few := countP_contested_le other
    omega
  refine ⟨after, warns.congr (fun _ _ => rfl) (fun _ _ => rfl) fun rank inside => ?_, value⟩
  by_cases middle : rank = 1
  · subst middle
    rw [List.filter_eq_self.2 fun x member => decide_eq_true (only 1 inside x member)] at chain
    rw [chain]
    rfl
  · have quiet : found rank = [] := by
      refine List.eq_nil_iff_forall_not_mem.2 fun x member => middle ?_
      have mine := (owners rank inside).1 x member
      rw [only rank inside x member] at mine
      have owned : contestedExtents.findOwner 2 = .ok 1 := rfl
      exact Except.ok.inj (mine.symm.trans owned)
    rw [quiet, if_neg middle]
    rfl

end VectorPart

end HaloVector
