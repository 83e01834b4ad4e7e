import HaloVector.Proofs.VectorCalls

/-!
# Deadlock freedom

No session ever gets stuck, whatever the ranks pass in and whatever fails on the way.

1. Every call is safe (`Call.safe`).
2. Calls follow each other, so a whole session comes to the same under all schedules and
   all tags (`exists_reports`).
3. Hence no rank waits in vain, every rank ends, and no message is left
   (`session_deadlock_free`).
-/

namespace HaloVector

section session

variable {size : Nat} {ι : Type} {T : ι → Type} [∀ i, Cell (T i)] [∀ i, LawfulCell (T i)]

/-- Linked families stay linked, and all ranks come through. -/
theorem Call.safe (call : Call size T) {families : Nat → Family} (linked : Linked size families) :
    call.Safe families := by
  cases call with
  | makeVector name sizes globals => exact safe_makeVector linked name sizes globals
  | makeHalo name sizes globals ids => exact safe_makeHalo linked name sizes globals ids
  | makeGhosted name sizes globals ids => exact safe_makeGhosted linked name sizes globals ids
  | vectorOver name extents ranks => exact safe_vectorOver linked name extents ranks
  | haloOver name extents ids => exact safe_haloOver linked name extents ids
  | ghostedOver name source => exact safe_ghostedOver linked name source
  | buildPlan extents ids => exact safe_buildPlan linked extents ids
  | write name values => exact safe_write linked name values
  | assemble name calls small => exact safe_assemble linked name calls small
  | refresh name kind owned ghosts => exact safe_refresh linked name kind owned ghosts
  | refreshBuffer name kind buffers => exact safe_refreshBuffer linked name kind buffers
  | updateGhosts name => exact safe_updateGhosts linked name
  | norm name which => exact safe_norm linked name which
  | agreeOnMode modes => exact safe_agreeOnMode linked modes
  | agreeOnOutcome operations outcomes => exact safe_agreeOnOutcome linked operations outcomes
  | barrier => exact safe_barrier linked

/-- The reports of a session depend on neither the schedule nor the tags. -/
theorem exists_reports (calls : List (Call size T)) {families : Nat → Family}
    (linked : Linked size families) :
    ∃ reports : Nat → List (Report T), ∀ (tags : Nat → VectorTags) (labels : Nat → Labels),
      Group.Settles size (fun rank => runSession rank calls tags (.of families labels rank))
        reports := by
  -- what a call leaves behind is linked, so the next call is safe again
  induction calls generalizing families with
  | nil => exact ⟨fun _ => [], fun _ _ => .done _⟩
  | cons call rest ih =>
    obtain ⟨after, reports, sound, comes⟩ := call.safe linked
    obtain ⟨later, settled⟩ := ih sound
    refine ⟨fun rank => reports rank :: later rank, fun tags labels => ?_⟩
    obtain ⟨labels', first⟩ := comes (tags 0) labels
    exact first.bind ((settled (fun position => tags (position + 1)) labels').map
      fun rank => (reports rank :: ·))

/-- All ranks make the same calls, each with arguments of its own. Whatever was done so far,
if a rank has not ended, some rank can go on. No schedule goes on forever. In the end every
rank has ended and no message is left, and what the ranks have learnt is always the same,
whatever the schedule and the tags. -/
theorem session_deadlock_free (calls : List (Call size T)) :
    ∃ reports : Nat → List (Report T), ∀ tags : Nat → VectorTags,
      (∀ reached, (startSession size calls tags).Reaches reached →
        (∃ rank < size, reached.value? rank = none) → ∃ next, reached.Step next) ∧
      Acc (fun later earlier : Group _ => earlier.Step later) (startSession size calls tags) ∧
      ∀ last, (startSession size calls tags).Reaches last → last.IsStuck →
        last.mailbox = .empty ∧ ∀ rank < size, last.value? rank = some (reports rank) := by
  have nothing : Linked size fun _ => .nothing := fun _ => trivial
  obtain ⟨reports, settled⟩ := exists_reports calls nothing
  have ended : ∀ rank < size, Group.value? (.ofRanks size fun rank => .done (reports rank)) rank =
      some (reports rank) := by
    intro rank inside
    rw [Group.value?, Group.getElem?_ofRanks, if_pos inside]
  refine ⟨reports, fun tags => ?_⟩
  have here : Group.Settles size
      (fun rank => runSession rank calls tags fun _ => .nothing) reports :=
    settled tags default
  refine ⟨fun reached toReached unfinished => ?_, here.terminates, fun last toLast stuck => ?_⟩
  · refine here.progress toReached fun all => ?_
    obtain ⟨rank, inside, missing⟩ := unfinished
    rw [all, ended rank inside] at missing
    cases missing
  · obtain rfl := here.eq_of_isStuck toLast stuck
    exact ⟨rfl, ended⟩

end session

/-- Two ranks that first set and add in one assembly, then agree. -/
def quarrel : List (Call 2 fun _ : Unit => UInt64) := [
  .makeGhosted 0 (fun _ => 2) (fun _ => 4) fun rank => if rank = 0 then [2] else [1, 0],
  .assemble 0
    (fun rank => [.one (if rank = 0 then .set else .add) ⟨3, .one⟩])
    (by decide),
  .assemble 0 (fun _ => [.batch .add [0, 3] [.one, .one]]) (by decide),
  .updateGhosts 0,
  .norm 0 fun _ => .l2]

theorem session_deadlock_free_quarrel :
    ∃ reports : Nat → List (Report fun _ : Unit => UInt64), ∀ tags last,
      (startSession 2 quarrel tags).Reaches last → last.IsStuck →
        last.mailbox = .empty ∧ last.value? 0 = some (reports 0) ∧
          last.value? 1 = some (reports 1) := by
  obtain ⟨reports, comes⟩ := session_deadlock_free quarrel
  refine ⟨reports, fun tags last toLast stuck => ?_⟩
  obtain ⟨-, -, ends⟩ := comes tags
  obtain ⟨empty, learnt⟩ := ends last toLast stuck
  exact ⟨empty, learnt 0 (by decide), learnt 1 (by decide)⟩

end HaloVector
