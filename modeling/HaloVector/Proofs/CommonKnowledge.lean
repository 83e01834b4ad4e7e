import Mathlib.Data.List.Sort
import HaloVector.Proofs.Severity
import HaloVector.Proofs.VectorCalls

/-!
# Common knowledge

What a group has gathered is the same on every rank, so all that is computed from it alone is
the same as well, down to the last bit. What is computed from it together with something local
is not, but each rank can say what the others came to.

* `Group.gathers_are_shared`: contributions of one length fill the buffers of all ranks in rank
  order, round after round. Gathered values, reductions and norms follow.
* `Group.outcomes_are_shared`: ranks that agree on an outcome either all go on, each with its own
  value, or all stop, and then those that did not fail name exactly those that did.
-/

namespace HaloVector
namespace Group

/-! ## Gathering -/

/-- What the ranks contribute to a gather, and the buffers that they have for what comes. -/
structure GatherRound where
  length : Nat
  contributions : Nat → Bytes
  buffers : Nat → Bytes

/-- All contributions have the length, and each buffer has room for exactly one of each rank. -/
structure GatherRound.Fits (round : GatherRound) (size : Nat) : Prop where
  sized : ∀ rank < size, (round.contributions rank).length = round.length
  roomy : ∀ rank < size, (round.buffers rank).length = size * round.length

/-- The rounds of one rank, one after the other. -/
def gatherRounds (size : Nat) (rounds : List GatherRound) (rank : Nat) :
    Program (List (Attempt Bytes)) :=
  rounds.mapM fun round =>
    allgather (.member rank size) (round.contributions rank) (round.buffers rank)

variable {size : Nat}

/-- Nothing of a round is left for the next one, though all rounds use the same tag. -/
theorem settles_gatherRounds {rounds : List GatherRound}
    (fitting : ∀ round ∈ rounds, round.Fits size) :
    Settles size (gatherRounds size rounds) fun _ =>
      rounds.map fun round => ⟨(List.range size).flatMap round.contributions, .ok ()⟩ := by
  induction rounds with
  | nil => exact .done _
  | cons round rest ih =>
    obtain ⟨fits, later⟩ := List.forall_mem_cons.1 fitting
    have here (rank : Nat) : gatherRounds size (round :: rest) rank =
        (allgather (.member rank size) (round.contributions rank) (round.buffers rank)).bind
          fun received => (gatherRounds size rest rank).bind fun others =>
            .done (received :: others) := List.mapM_cons
    rw [funext here]
    exact (settles_allgather round.buffers fits.sized fits.roomy).bind
      ((ih later).map fun _ => List.cons _)

/-- What is gathered is in rank order, and the same on every rank of the group: the bytes in a
buffer, the values, and what a sum, a maximum or a norm makes of them from left to right. -/
theorem gathers_are_shared (size : Nat) :
    (∀ rounds : List GatherRound, (∀ round ∈ rounds, round.Fits size) →
      Settles size (gatherRounds size rounds) fun _ =>
        rounds.map fun round => ⟨(List.range size).flatMap round.contributions, .ok ()⟩) ∧
    (∀ {α : Type} [Cell α] [LawfulCell α] (values : Nat → α),
      Settles size (fun rank => (gather (.member rank size) (values rank)).run)
        fun _ => .ok ((List.range size).map values)) ∧
    (∀ values : Nat → Scalar,
      Settles size (fun rank => (reduce (.member rank size) (values rank) .sum).run)
        (fun _ => .ok (((List.range size).map values).foldl (· + ·) Scalar.negZero)) ∧
      Settles size (fun rank => (reduce (.member rank size) (values rank) .max).run)
        fun _ => .ok (((List.range size).map values).foldl .max .negInfinity)) ∧
    ∀ shards : Nat → Shard, (∀ rank < size, (shards rank).topology = ⟨rank, size⟩) →
      let parts (which : Norm) := (List.range size).map fun rank => (shards rank).normPart which
      let norms (which : Norm) : Nat → Program (Except VectorError Scalar) :=
        fun rank => ((shards rank).norm (.member rank size) which).run
      Settles size (norms .l1) (fun _ => .ok ((parts .l1).foldl (· + ·) Scalar.negZero)) ∧
      Settles size (norms .l2) (fun _ => .ok ((parts .l2).foldl (· + ·) Scalar.negZero).sqrt) ∧
      Settles size (norms .lInf) fun _ => .ok ((parts .lInf).foldl .max .negInfinity) := by
  refine ⟨fun _ fitting => settles_gatherRounds fitting, fun values => settles_gather values,
    fun values => ⟨settles_reduce values fun _ => .sum, settles_reduce values fun _ => .max⟩,
    fun shards seated => ?_⟩
  have checked : ∀ rank < size,
      (Communicator.member rank size).check (shards rank).topology = .ok () := by
    intro rank inside
    rw [seated rank inside]
    exact Communicator.check_member inside
  exact ⟨settles_norm (fun _ => .l1) checked, settles_norm (fun _ => .l2) checked,
    settles_norm (fun _ => .lInf) checked⟩

/-- Three rounds of two ranks, of which the second one has nothing to say. -/
def countingRounds : List GatherRound :=
  [⟨2, fun rank => [.ofNat rank, 7], fun _ => [9, 9, 9, 9]⟩, ⟨0, fun _ => [], fun _ => []⟩,
    ⟨1, fun rank => [.ofNat (rank + 4)], fun rank => [.ofNat rank, 8]⟩]

/-- The parts of a vector with one entry on the first rank and three on the second. -/
def splitShards (rank : Nat) : Shard :=
  .zeroed ⟨rank, 2⟩ ⟨[1, 4], by decide, by decide⟩ default

theorem gathers_are_shared_counting :
    (∀ round ∈ countingRounds, round.Fits 2) ∧
    (∀ rank < 2, (splitShards rank).topology = ⟨rank, 2⟩) ∧
    Settles 2 (gatherRounds 2 countingRounds)
      (fun _ => [⟨[0, 7, 1, 7], .ok ()⟩, ⟨[], .ok ()⟩, ⟨[4, 5], .ok ()⟩]) ∧
    Settles 2 (fun rank => ((splitShards rank).norm (.member rank 2) .lInf).run)
      fun _ => .ok (((Scalar.negInfinity).max .zero).max .zero) := by
  have fits : ∀ round ∈ countingRounds, round.Fits 2 := by
    intro round member
    constructor <;> revert round <;> decide
  have seated : ∀ rank < 2, (splitShards rank).topology = ⟨rank, 2⟩ := fun _ _ => rfl
  obtain ⟨gathered, -, -, norms⟩ := gathers_are_shared 2
  exact ⟨fits, seated, gathered _ fits, (norms _ seated).2.2⟩

/-! ## Outcomes -/

/-- Ranks that agree on an outcome get back their own values if none has failed. If some have,
those end with their own errors. All others end with an error that names the ranks that have
failed, from the lowest on, and is as severe as the worst of their errors. -/
theorem outcomes_are_shared {α : Type} (size : Nat) (outcomes : Nat → Except VectorError α)
    (operations : Nat → String) :
    ∃ results : Nat → Except VectorError α,
      Settles size
        (fun rank => (agreeOnOutcome (.member rank size) (outcomes rank) (operations rank)).run)
        results ∧
      ((∀ rank < size, ∃ value, outcomes rank = .ok value) →
        ∀ rank < size, results rank = outcomes rank) ∧
      ((∃ rank < size, ∃ e, outcomes rank = .error e) →
        ∃ (failed : List Nat) (severity : ErrorClass),
          failed.Pairwise (· < ·) ∧
          (∀ rank, rank ∈ failed ↔ rank < size ∧ ∃ e, outcomes rank = .error e) ∧
          (severity = .protocol ↔
            ∃ rank < size, ∃ e, outcomes rank = .error e ∧ e.severity = .protocol) ∧
          ∀ rank < size, results rank = match outcomes rank with
            | .error e => .error e
            | .ok _ => .error (.peerFailed rank (operations rank) failed severity)) := by
  refine ⟨_, settles_agreeOnOutcome, fun passed rank inside => ?_, fun someone => ?_⟩
  · obtain ⟨value, own⟩ := passed rank inside
    simp only [agreed, own, failing_eq_nil_iff.2 passed, List.isEmpty_nil, if_true]
  · refine ⟨failing size outcomes, failureClass size outcomes,
      List.pairwise_lt_range.filter _, fun _ => mem_failing, failureClass_eq_protocol_iff,
      fun rank _ => ?_⟩
    obtain ⟨odd, within, e, broken⟩ := someone
    have some' : ¬ (failing size outcomes).isEmpty :=
      mt List.isEmpty_iff.1 (List.ne_nil_of_mem (mem_failing.2 ⟨within, e, broken⟩))
    unfold agreed
    cases outcomes rank with
    | error own => rfl
    | ok value => exact if_neg some'

/-- The first rank has not failed, the second one passes on that others have lost a message, and
the third one has made a mistake. -/
def carriedOutcomes : Nat → Except VectorError Nat
  | 0 => .ok 4
  | 1 => .error (.peerFailed 1 "exchange" [0, 2] .protocol)
  | _ => .error (.invalidGlobalId 9 5)

theorem outcomes_are_shared_carried :
    Settles 3 (fun rank => (agreeOnOutcome (.member rank 3) (carriedOutcomes rank) "step").run)
      fun rank =>
        if rank = 0 then .error (.peerFailed 0 "step" [1, 2] .protocol)
        else carriedOutcomes rank := by
  obtain ⟨results, settled, -, stopped⟩ := outcomes_are_shared 3 carriedOutcomes fun _ => "step"
  obtain ⟨failed, severity, sorted, listed, worst, each⟩ := stopped ⟨1, by decide, _, rfl⟩
  have severe : severity = .protocol := worst.2 ⟨1, by decide, _, rfl, rfl⟩
  have names : failed = [1, 2] := by
    refine sorted.eq_of_mem_iff (by decide) fun rank => ?_
    rw [listed]
    match rank with
    | 0 => simp [carriedOutcomes]
    | 1 | 2 => simp [carriedOutcomes]
    | rank + 3 => simp
  refine settled.congr (fun _ _ => rfl) fun rank inside => (each rank inside).trans ?_
  rw [names, severe]
  match rank with
  | 0 | 1 | 2 => rfl

end Group
end HaloVector
