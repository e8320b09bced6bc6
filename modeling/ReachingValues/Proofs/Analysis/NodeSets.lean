import ReachingValues.Analysis.ReachTable
import ReachingValues.IndexSet.Lemmas

/-!
The table of sets. It grows for the handles that come up, which may be any at all, so what decides
whether it can be changed at a node is the handle of the node. Where it can, the set of that node is
changed and no other, and places that were only made on the way are not seen.
-/

namespace ReachingValues

namespace NodeSets

variable {sets later : NodeSets} {values : ValueSet} {room capacity : Nat} {b c n : Node}
  {v : ValueId} {change : ValueSet → Except Fault ValueSet}

/-- The table with a set for `b`. -/
def set (s : NodeSets) (b : Node) (values : ValueSet) : NodeSets :=
  ⟨(lengthen s.entries (b + 1) none).setIfInBounds b (some values)⟩

@[simp] theorem get?_set (s : NodeSets) (b c : Node) (values : ValueSet) :
    (s.set b values).get? c = if c = b then some values else s.get? c := by
  rw [get?, set, getD_setIfInBounds (lt_size_lengthen s.entries b none), getD_lengthen, get?]

theorem size_set (s : NodeSets) (b : Node) (values : ValueSet) :
    (s.set b values).entries.size = max s.entries.size (b + 1) := by
  rw [set, Array.size_setIfInBounds, size_lengthen]

section Update

theorem update_of_reserve
    (made : reserve sets.entries room b none = .ok (lengthen sets.entries (b + 1) none)) :
    sets.update room capacity b change = (change (sets.held capacity b)).map (sets.set b) := by
  have inside := lt_size_lengthen sets.entries b none
  have found : fetch (lengthen sets.entries (b + 1) none) b = .ok (sets.get? b) := by
    rw [fetch_eq inside none, getD_lengthen, get?]
  rw [update, made, ok_bind, found, ok_bind, held]
  cases change ((sets.get? b).getD (.empty capacity)) with
  | error fault => rfl
  | ok values => rw [ok_bind, store_eq inside, ok_bind]; rfl

/-- A handle for which there is room gets a place, and then the change decides. -/
theorem update_of_lt (inside : b < room) :
    sets.update room capacity b change = (change (sets.held capacity b)).map (sets.set b) :=
  update_of_reserve (reserve_of_lt sets.entries none inside)

theorem update_of_le (within : sets.entries.size ≤ room) (outside : room ≤ b) :
    sets.update room capacity b change = .error (.noRoom (b + 1) room) := by
  rw [update, reserve_of_le within none outside, error_bind]

variable (run : sets.update room capacity b change = .ok later)

include run

theorem eq_set_of_update : ∃ values, change (sets.held capacity b) = .ok values ∧
    later = sets.set b values := by
  have made : reserve sets.entries room b none = .ok (lengthen sets.entries (b + 1) none) := by
    obtain ⟨entries, made, _⟩ := bind_eq_ok_iff.mp run
    rw [made, eq_lengthen_of_reserve made]
  rw [update_of_reserve made] at run
  cases changed : change (sets.held capacity b) with
  | error fault => simp [changed, Except.map] at run
  | ok values =>
    rw [changed] at run
    exact ⟨values, rfl, (Except.ok.inj run).symm⟩

/-- A table that there is room for stays one, and the handle is in it. -/
theorem within_of_update (within : sets.entries.size ≤ room) :
    later.entries.size ≤ room ∧ b < room := by
  have inside : b < room := Nat.lt_of_not_le fun outside => by
    rw [update_of_le within outside] at run
    cases run
  obtain ⟨values, _, rfl⟩ := eq_set_of_update run
  exact ⟨size_set sets b values ▸ Nat.max_le.mpr ⟨within, inside⟩, inside⟩

end Update

/-- All sets are sets over the same universe. -/
def Over (sets : NodeSets) (capacity : Nat) : Prop :=
  ∀ n s, sets.get? n = some s → s.capacity = capacity

/-- Whether a value has been handed to the node. -/
def Holds (sets : NodeSets) (n : Node) (v : ValueId) : Prop :=
  ∃ s, sets.get? n = some s ∧ s.contains v

@[simp] theorem get?_bare : bare.get? n = none := rfl

theorem Over.held_capacity (fits : sets.Over capacity) :
    (sets.held capacity n).capacity = capacity := by
  unfold held
  cases known : sets.get? n with
  | none => rfl
  | some s => exact fits n s known

theorem held_contains : (sets.held capacity n).contains v ↔ sets.Holds n v := by
  unfold held Holds
  cases sets.get? n <;> simp

theorem holds_iff_of_get? (known : sets.get? n = some values) :
    sets.Holds n v ↔ values.contains v := by
  simp [Holds, known]

theorem Over.set (fits : sets.Over capacity) (same : values.capacity = capacity) :
    (sets.set c values).Over capacity := by
  intro n s known
  rw [get?_set] at known
  split at known
  · exact Option.some.inj known ▸ same
  · exact fits n s known

theorem holds_set : (sets.set c values).Holds n v ↔
    if n = c then values.contains v = true else sets.Holds n v := by
  simp only [Holds, get?_set]
  split <;> simp

end NodeSets

end ReachingValues
