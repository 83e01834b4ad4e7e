import HaloVector.Proofs.GhostExchange
import HaloVector.Proofs.PrefixSums

/-!
# Construction

All ranks of a group make a vector or a halo together. Extents are laid out from one
gather, so every rank has the same, and every later check is agreed on. Hence all ranks
get what they make or none does.

* `Group.settles_buildDeclared_bind` and `Group.declared_cases` deal with the extents that
  come first.
* `Plan.unanimous_built` and `Halo.unanimous_built` deal with what is made over extents.
-/

namespace HaloVector

/-! ## Extents -/

namespace Extents

theorem numRanks_of_ofSizes {sizes : List UInt64} {e : Extents} (laid : ofSizes sizes = .ok e) :
    e.numRanks = sizes.length := by
  rw [← ofSizes_eq_ok_iff.1 laid, length_sizes]

/-- What laying out extents comes to on a rank. -/
def declared (size : Nat) (sizes globals : Nat → UInt64) (operation : String) (rank : Nat) :
    Except VectorError Extents := do
  let e ← ofSizes ((List.range size).map sizes)
  Group.agreed size (fun rank => e.checkGlobalSize (globals rank)) operation rank
  pure e

end Extents

namespace Group

variable {β : Type} {size : Nat} {sizes globals : Nat → UInt64} {operation : String}

theorem settles_layOut : Settles size
    (fun rank => (Extents.build (.member rank size) (sizes rank)).run)
    fun _ => Extents.ofSizes ((List.range size).map sizes) := by
  refine Collective.settles_bind_ok (settles_gather sizes) (.of_computes fun rank _ => ?_)
  cases Extents.ofSizes ((List.range size).map sizes) with
  | error e => exact Program.computes_done _
  | ok e => exact Collective.computes_bind_ok (fun _ _ => rfl) (Program.computes_done _)

/-- All ranks go on with the same extents, or all stop here. -/
theorem settles_buildDeclared_bind {f : Nat → Extents → Collective β}
    {g : Nat → Extents → Except VectorError β}
    (later : ∀ e : Extents, e.numRanks = size →
      Settles size (fun rank => (f rank e).run) fun rank => g rank e) :
    Settles size
      (fun rank => (Extents.buildDeclared (.member rank size) (sizes rank) (globals rank)
        operation >>= f rank).run)
      fun rank => Extents.declared size sizes globals operation rank >>= g rank := by
  simp only [Extents.buildDeclared, Extents.declared, bind_assoc]
  refine Collective.settles_bind settles_layOut ?_
  cases laid : Extents.ofSizes ((List.range size).map sizes) with
  | error e => exact .done _
  | ok e =>
    have ranks : e.numRanks = size := by
      simpa using Extents.numRanks_of_ofSizes laid
    exact settles_agreeOnOutcome_bind fun _ _ => later e ranks

theorem declared_cases (size : Nat) (sizes globals : Nat → UInt64) (operation : String) :
    (∃ e : Extents, e.numRanks = size ∧
      ∀ rank < size, Extents.declared size sizes globals operation rank = .ok e) ∨
    ∃ errors : Nat → VectorError,
      ∀ rank < size, Extents.declared size sizes globals operation rank = .error (errors rank) := by
  unfold Extents.declared
  cases laid : Extents.ofSizes ((List.range size).map sizes) with
  | error e => exact .inr ⟨fun _ => e, fun _ _ => rfl⟩
  | ok e =>
    have checked := @unanimous_agreed _ size (fun rank => e.checkGlobalSize (globals rank))
      fun _ => operation
    rcases checked with ⟨_, passed⟩ | ⟨errors, stopped⟩
    · refine .inl ⟨e, by simpa using Extents.numRanks_of_ofSizes laid, fun rank inside => ?_⟩
      exact congrArg (· >>= fun _ => pure e) (passed rank inside)
    · refine .inr ⟨errors, fun rank inside => ?_⟩
      exact congrArg (· >>= fun _ => pure e) (stopped rank inside)

end Group

/-! ## Vectors -/

namespace Shard

/-- What making a vector comes to on a rank. -/
def created (size : Nat) (sizes globals : Nat → UInt64) (tags : VectorTags) (rank : Nat) :
    Except VectorError Shard := do
  let e ← Extents.declared size sizes globals "vector construction" rank
  pure (zeroed ⟨rank, size⟩ e tags)

theorem ofExtents_member {size rank : Nat} (inside : rank < size) {e : Extents}
    (ranks : e.numRanks = size) (tags : VectorTags) :
    ofExtents (.member rank size) e tags = .ok (zeroed ⟨rank, size⟩ e tags) := by
  have passed : e.checkNumRanks size = .ok () := if_pos ranks
  unfold ofExtents
  rw [Communicator.topology_member inside, passed]
  rfl

variable {size : Nat} {sizes globals : Nat → UInt64} {tags : VectorTags}

theorem settles_create : Group.Settles size
    (fun rank => (create (.member rank size) (sizes rank) (globals rank) tags).run)
    (created size sizes globals tags) := by
  refine Group.settles_buildDeclared_bind fun e ranks => .of_computes fun rank inside => ?_
  rw [ofExtents_member inside ranks]
  exact Program.computes_done _

/-- All ranks have zero shards over the same extents, or none has any, whatever the tags. -/
theorem created_cases (size : Nat) (sizes globals : Nat → UInt64) :
    (∃ e : Extents, e.numRanks = size ∧ ∀ tags, ∀ rank < size,
      created size sizes globals tags rank = .ok (zeroed ⟨rank, size⟩ e tags)) ∨
    ∃ errors : Nat → VectorError, ∀ tags, ∀ rank < size,
      created size sizes globals tags rank = .error (errors rank) := by
  rcases Group.declared_cases size sizes globals "vector construction" with
    ⟨e, ranks, laid⟩ | ⟨errors, stopped⟩
  · refine .inl ⟨e, ranks, fun tags rank inside => ?_⟩
    exact congrArg (Except.map fun e => zeroed ⟨rank, size⟩ e tags) (laid rank inside)
  · refine .inr ⟨errors, fun tags rank inside => ?_⟩
    exact congrArg (Except.map fun e => zeroed ⟨rank, size⟩ e tags) (stopped rank inside)

end Shard

/-! ## Plans and halos -/

theorem Plan.unanimous_built (size : Nat) (extents : Nat → Extents) (ids : Nat → List UInt64) :
    Group.Unanimous size (built size extents ids) :=
  (Group.unanimous_agreed fun _ => "ghost plan build").bind fun _ _ =>
    (Group.unanimous_agreed fun _ => "ghost plan build").bind fun _ _ => Group.unanimous_ok _

namespace Halo

theorem unanimous_built (size : Nat) (extents : Nat → Extents) (ids : Nat → List UInt64)
    (tags : HaloTags) : Group.Unanimous size (built size extents ids tags) := by
  refine (Group.unanimous_agreed fun _ => "ghost communicator construction").bind fun places _ => ?_
  refine (Plan.unanimous_built size extents ids).bind fun plans planned => ?_
  have found : Group.Unanimous size fun rank => slotsOf (plans rank) (ids rank) :=
    .inl ⟨_, fun rank inside => slotsOf_eq (exists_position inside (planned rank inside))⟩
  exact found.bind fun _ _ => Group.unanimous_ok _

/-- What making a halo over new extents comes to on a rank. -/
def created (size : Nat) (sizes globals : Nat → UInt64) (ids : Nat → List UInt64)
    (tags : HaloTags) (rank : Nat) : Except VectorError Halo := do
  let e ← Extents.declared size sizes globals "ghost communicator construction" rank
  built size (fun _ => e) ids tags rank

variable {size : Nat} {sizes globals : Nat → UInt64} {ids : Nat → List UInt64} {tags : HaloTags}

theorem settles_create : Group.Settles size
    (fun rank => (create (.member rank size) (sizes rank) (globals rank) (ids rank) tags).run)
    (created size sizes globals ids tags) :=
  Group.settles_buildDeclared_bind fun e _ => settles_ofExtents size (fun _ => e) ids tags

/-- The halos that are made over new extents are linked, if they are made at all. -/
theorem created_cases :
    (∃ e halos, Together size (fun _ => e) ids tags halos ∧
      ∀ rank < size, created size sizes globals ids tags rank = .ok (halos rank)) ∨
    ∃ errors : Nat → VectorError,
      ∀ rank < size, created size sizes globals ids tags rank = .error (errors rank) := by
  unfold created
  rcases Group.declared_cases size sizes globals "ghost communicator construction" with
    ⟨e, -, laid⟩ | ⟨errors, stopped⟩
  · have through {rank : Nat} (inside : rank < size) :=
      congrArg (· >>= fun e => built size (fun _ => e) ids tags rank) (laid rank inside)
    rcases unanimous_built size (fun _ => e) ids tags with ⟨halos, made⟩ | ⟨errors, stopped⟩
    · exact .inl ⟨e, halos, made, fun rank inside => (through inside).trans (made rank inside)⟩
    · exact .inr ⟨errors, fun rank inside => (through inside).trans (stopped rank inside)⟩
  · refine .inr ⟨errors, fun rank inside => ?_⟩
    exact congrArg (· >>= fun e => built size (fun _ => e) ids tags rank) (stopped rank inside)

/-! ## Other tags -/

/-- The tags of a halo are kept with it and do nothing else. -/
theorem built_tags (size : Nat) (extents : Nat → Extents) (ids : Nat → List UInt64)
    (tags other : HaloTags) (rank : Nat) : built size extents ids tags rank =
      (built size extents ids other rank).map fun halo => { halo with tags } := by
  unfold built
  cases Group.agreed size (fun rank => ghostPlaces ⟨rank, size⟩ (extents rank) (ids rank))
      "ghost communicator construction" rank with
  | error e => rfl
  | ok places =>
    cases Plan.built size extents ids rank with
    | error e => rfl
    | ok plan =>
      show (slotsOf plan (ids rank) >>= _) = Except.map _ (slotsOf plan (ids rank) >>= _)
      cases slotsOf plan (ids rank) with
      | error e => rfl
      | ok slots => rfl

theorem Together.withTags {extents : Nat → Extents} {halos : Nat → Halo}
    (together : Together size extents ids tags halos) (other : HaloTags) :
    Together size extents ids other fun rank => { halos rank with tags := other } := by
  intro rank inside
  rw [built_tags size extents ids other tags, together rank inside]
  rfl

theorem created_tags (other : HaloTags) (rank : Nat) :
    created size sizes globals ids tags rank =
      (created size sizes globals ids other rank).map fun halo => { halo with tags } := by
  unfold created
  cases Extents.declared size sizes globals "ghost communicator construction" rank with
  | error e => rfl
  | ok e => exact built_tags size (fun _ => e) ids tags other rank

end Halo

end HaloVector
