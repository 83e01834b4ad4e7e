import HaloVector.VectorError

/-!
# Checks over lists

A check that goes through a list stops at the first element that it refuses. So it
passes exactly if every element passes, and the error is that of the first element
that does not.
-/

namespace HaloVector

variable {ε α β : Type}

/-- What comes out of two checks has passed both. -/
theorem bind_eq_ok_iff {first : Except ε α} {second : α → Except ε β} {result : β} :
    first >>= second = .ok result ↔ ∃ middle, first = .ok middle ∧ second middle = .ok result := by
  cases first with
  | ok middle =>
    constructor
    · exact fun passed => ⟨middle, rfl, passed⟩
    · rintro ⟨_, ⟨⟩, passed⟩
      exact passed
  | error e => exact ⟨nofun, nofun⟩

theorem map_eq_ok_iff {outcome : Except ε α} {f : α → β} {value : β} :
    outcome.map f = .ok value ↔ ∃ result, outcome = .ok result ∧ f result = value := by
  cases outcome <;> simp [Except.map]

theorem forM_eq_ok_iff {check : α → Except ε Unit} {items : List α} :
    items.forM check = .ok () ↔ ∀ item ∈ items, check item = .ok () := by
  induction items with
  | nil => simp [pure, Except.pure]
  | cons item rest ih =>
    rw [List.forM, List.forall_mem_cons, ← ih]
    cases check item with
    | ok => simp [bind, Except.bind]
    | error e => simp [bind, Except.bind]

theorem mapM_eq_ok {f : α → Except ε β} {g : α → β} {items : List α}
    (passes : ∀ item ∈ items, f item = .ok (g item)) :
    items.mapM f = .ok (items.map g) := by
  induction items with
  | nil => rfl
  | cons item rest ih =>
    obtain ⟨here, later⟩ := List.forall_mem_cons.1 passes
    rw [List.mapM_cons, here, ih later]
    rfl

theorem mapM_congr_left {f g : α → Except ε β} {items : List α}
    (same : ∀ item ∈ items, f item = g item) : items.mapM f = items.mapM g := by
  induction items with
  | nil => rfl
  | cons item rest ih =>
    obtain ⟨here, later⟩ := List.forall_mem_cons.1 same
    rw [List.mapM_cons, List.mapM_cons, here, ih later]

/-- If a list passes, so does each of its elements. -/
theorem exists_of_mapM_eq_ok {f : α → Except ε β} {items : List α} {results : List β}
    (passed : items.mapM f = .ok results) {item : α} (member : item ∈ items) :
    ∃ result ∈ results, f item = .ok result := by
  induction items generalizing results with
  | nil => cases member
  | cons first rest ih =>
    rw [List.mapM_cons] at passed
    obtain ⟨head, here, passed⟩ := bind_eq_ok_iff.1 passed
    obtain ⟨tail, later, passed⟩ := bind_eq_ok_iff.1 passed
    cases passed
    rcases List.mem_cons.1 member with rfl | member
    · exact ⟨head, List.mem_cons_self, here⟩
    · obtain ⟨result, present, same⟩ := ih later member
      exact ⟨result, List.mem_cons_of_mem head present, same⟩

/-- What comes out of a list comes from one of its elements. -/
theorem exists_mem_of_mapM_eq_ok {f : α → Except ε β} {items : List α} {results : List β}
    (passed : items.mapM f = .ok results) {result : β} (present : result ∈ results) :
    ∃ item ∈ items, f item = .ok result := by
  induction items generalizing results with
  | nil =>
    cases passed
    cases present
  | cons first rest ih =>
    rw [List.mapM_cons] at passed
    obtain ⟨head, here, passed⟩ := bind_eq_ok_iff.1 passed
    obtain ⟨tail, later, passed⟩ := bind_eq_ok_iff.1 passed
    cases passed
    rcases List.mem_cons.1 present with rfl | present
    · exact ⟨first, List.mem_cons_self, here⟩
    · obtain ⟨item, member, same⟩ := ih later present
      exact ⟨item, List.mem_cons_of_mem first member, same⟩

end HaloVector
