import ReachingValues.IndexSet.Basic

/-!
Index sets through membership: what each operation does to it, and that capacity and members
together determine the set.
-/

namespace ReachingValues

namespace IndexSet

variable {s t : IndexSet} {i j : Nat}

/-- The test against the capacity decides nothing, as no digit beyond it is one. -/
theorem contains_eq_digit (s : IndexSet) (i : Nat) : s.contains i = Word.digit s.words i := by
  unfold contains
  split
  · rename_i inside
    rw [Word.and_mask_ne_zero, Word.digit_eq (s.div_lt_size inside)]
  · rename_i outside
    exact (Bool.eq_false_iff.mpr fun one => outside (s.lt_capacity i one)).symm

theorem lt_capacity_of_contains (member : s.contains i) : i < s.capacity :=
  s.lt_capacity i (s.contains_eq_digit i ▸ member)

theorem eq_iff : s = t ↔ s.capacity = t.capacity ∧ ∀ i, s.contains i = t.contains i := by
  constructor
  · rintro rfl
    exact ⟨rfl, fun _ => rfl⟩
  · rintro ⟨capacity, members⟩
    simp only [contains_eq_digit] at members
    have words := Word.eq_of_digit_eq (size_eq_of_capacity_eq capacity.symm) members
    obtain ⟨_, _, _, _⟩ := s
    obtain ⟨_, _, _, _⟩ := t
    simp_all

@[simp] theorem contains_empty (capacity : Nat) : (empty capacity).contains i = false := by
  simp [contains_eq_digit, empty]

@[simp] theorem contains_withIndex (inside : i < s.capacity) :
    (s.withIndex i inside).contains j = (s.contains j || decide (j = i)) := by
  simp only [contains_eq_digit, withIndex, Word.digit_set_mask]

@[simp] theorem contains_withAll (same : t.capacity = s.capacity) :
    (s.withAll t same).contains j = (s.contains j || t.contains j) := by
  simp only [contains_eq_digit, withAll, Word.digit_zipWith_or (size_eq_of_capacity_eq same)]

theorem insert_of_lt (inside : i < s.capacity) :
    s.insert i = .ok ⟨s.withIndex i inside, !s.contains i⟩ := by
  simp [insert, inside]

theorem insert_of_le (outside : s.capacity ≤ i) :
    s.insert i = .error (.indexOutOfRange i s.capacity) := by
  simp [insert, Nat.not_lt.mpr outside]

/-- The set of indices that are all below the capacity. -/
theorem ofList_ok {capacity : Nat} {indices : List Nat} (inside : ∀ i ∈ indices, i < capacity) :
    ∃ s, ofList capacity indices = .ok s ∧ s.capacity = capacity ∧
      ∀ i, s.contains i ↔ i ∈ indices := by
  refine foldlM_ok (fun (s : IndexSet) i => do return (← s.insert i).set) indices (empty capacity)
    (fun seen s => s.capacity = capacity ∧ ∀ i, s.contains i ↔ i ∈ seen) ⟨rfl, by simp⟩ ?_
  intro seen next rest s split ⟨size, members⟩
  have room : next < s.capacity := size ▸ inside next (by simp [split])
  refine ⟨s.withIndex next room, ?_, size, fun i => ?_⟩
  · rw [insert_of_lt room, ok_bind, pure_eq_ok]
  · simp [members]

/-- No word gains a digit just when no member is new. -/
theorem withAll_eq_left_iff (same : t.capacity = s.capacity) :
    s.withAll t same = s ↔ ∀ i, t.contains i → s.contains i := by
  have size : (s.withAll t same).capacity = s.capacity := rfl
  simp only [eq_iff, size, true_and, contains_withAll, Bool.or_eq_left_iff_imp]

theorem union_of_eq (same : t.capacity = s.capacity) :
    s.union t = .ok ⟨s.withAll t same, decide (s.withAll t same ≠ s)⟩ := by
  have kept : (s.words.zip t.words).all (fun pair => pair.1 ||| pair.2 == pair.1) =
      decide (s.withAll t same = s) := by
    rw [Bool.eq_iff_iff, decide_eq_true_eq, withAll_eq_left_iff]
    simp only [contains_eq_digit]
    exact Word.all_zip_iff (fun old more => more → old) (fun one => one)
      (fun _ => by rw [beq_iff_eq, Word.or_eq_left_iff]) (size_eq_of_capacity_eq same)
  have changed : (s.words.zip t.words).any (fun pair => pair.1 ||| pair.2 != pair.1) =
      !(s.words.zip t.words).all (fun pair => pair.1 ||| pair.2 == pair.1) :=
    Array.not_all_eq_any_not.symm
  rw [union, dif_pos same, changed, kept, decide_not]

theorem union_of_ne (different : t.capacity ≠ s.capacity) :
    s.union t = .error (.universeMismatch s.capacity t.capacity) := by
  simp [union, different]

theorem map_union_eq_ok_iff {u : IndexSet} :
    (s.union t).map Growth.set = .ok u ↔ ∃ same : t.capacity = s.capacity, s.withAll t same = u := by
  by_cases same : t.capacity = s.capacity
  · simp [union_of_eq same, Except.map, same]
  · simp [union_of_ne same, Except.map, same]

theorem isSuperset_of_eq (same : t.capacity = s.capacity) :
    ∃ b, s.isSuperset t = .ok b ∧ (b = true ↔ ∀ i, t.contains i → s.contains i) := by
  refine ⟨_, by simp only [isSuperset, same, if_pos]; rfl, ?_⟩
  simp only [contains_eq_digit]
  exact Word.all_zip_iff (fun upper lower => lower → upper) (fun one => one)
    (fun _ => by rw [beq_iff_eq]; exact Word.and_not_eq_zero_iff) (size_eq_of_capacity_eq same)

theorem isEmpty_iff : s.isEmpty ↔ ∀ i, s.contains i = false := by
  simp only [isEmpty, Array.all_eq_true, beq_iff_eq, contains_eq_digit]
  constructor
  · intro zero i
    by_cases room : i / 64 < s.words.size
    · rw [Word.digit_eq room, zero _ room, BitVec.getLsbD_zero]
    · simp [Word.digit, room]
  · intro none k room
    refine BitVec.eq_of_getLsbD_eq fun j below => ?_
    rw [Word.getLsbD_getElem room below, none]
    simp

end IndexSet

end ReachingValues
