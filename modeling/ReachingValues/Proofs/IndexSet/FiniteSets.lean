import Mathlib.Data.Finset.Sort
import ReachingValues.Proofs.IndexSet.Enumeration

/-!
Index sets stand for finite sets of numbers. Whatever sets are made by insertions and unions, every
question about them has the answer that the finite sets give which are made in the same way.
-/

namespace ReachingValues

namespace IndexSet

variable {s t : IndexSet} {X Y : Finset Nat} {i : Nat}

/-- Every question about the set alone is answered as for the finite set. -/
structure Represents (s : IndexSet) (X : Finset Nat) : Prop where
  inside : ∀ i ∈ X, i < s.capacity
  contains_iff : ∀ i, s.contains i ↔ i ∈ X
  count_eq : s.count = X.card
  isEmpty_iff : s.isEmpty ↔ X = ∅
  toList_eq : s.toList = X.sort (· ≤ ·)
  ascending : s.toList.Pairwise (· < ·)

/-- All answers follow from those about single indices. -/
theorem represents_of_contains_iff (members : ∀ i, s.contains i ↔ i ∈ X) : s.Represents X := by
  have listed : s.toList.toFinset = X := by
    ext i
    rw [List.mem_toFinset, mem_toList, members]
  have sorted : s.toList.Pairwise (· ≤ ·) := toList_pairwise_lt.imp Nat.le_of_lt
  refine ⟨fun i member => lt_capacity_of_contains ((members i).mpr member), members, ?_, ?_, ?_,
    toList_pairwise_lt⟩
  · rw [count_eq_length, ← List.toFinset_card_of_nodup toList_nodup, listed]
  · rw [IndexSet.isEmpty_iff, Finset.eq_empty_iff_forall_notMem]
    exact forall_congr' fun i => by rw [← members, Bool.not_eq_true]
  · rw [← listed]
    exact ((List.toFinset_sort (· ≤ ·) toList_nodup).mpr sorted).symm

theorem represents_empty (capacity : Nat) : (empty capacity).Represents ∅ :=
  represents_of_contains_iff fun i => by simp

namespace Represents

variable (represents : s.Represents X)

include represents

theorem insert (inside : i < s.capacity) :
    s.insert i = .ok ⟨s.withIndex i inside, decide (i ∉ X)⟩ ∧
      (s.withIndex i inside).Represents (X ∪ {i}) := by
  constructor
  · have fresh : s.contains i = decide (i ∈ X) := by
      rw [Bool.eq_iff_iff, represents.contains_iff, decide_eq_true_eq]
    rw [insert_of_lt inside, fresh, decide_not]
  · refine represents_of_contains_iff fun j => ?_
    rw [contains_withIndex, Bool.or_eq_true, represents.contains_iff, decide_eq_true_eq,
      Finset.mem_union, Finset.mem_singleton]

theorem union (other : t.Represents Y) (same : t.capacity = s.capacity) :
    s.union t = .ok ⟨s.withAll t same, decide (X ⊂ X ∪ Y)⟩ ∧
      (s.withAll t same).Represents (X ∪ Y) := by
  constructor
  · have grown : s.withAll t same ≠ s ↔ X ⊂ X ∪ Y := by
      rw [ne_eq, withAll_eq_left_iff, Finset.ssubset_iff_subset_ne, and_iff_right
        Finset.subset_union_left, ne_comm, ne_eq, Finset.union_eq_left, Finset.subset_iff]
      simp only [represents.contains_iff, other.contains_iff]
    rw [union_of_eq same, decide_eq_decide.mpr grown]
  · refine represents_of_contains_iff fun j => ?_
    rw [contains_withAll, Bool.or_eq_true, represents.contains_iff, other.contains_iff,
      Finset.mem_union]

theorem isSuperset (other : t.Represents Y) (same : t.capacity = s.capacity) :
    s.isSuperset t = .ok (decide (Y ⊆ X)) := by
  obtain ⟨answer, run, included⟩ := isSuperset_of_eq same
  have subset : answer = decide (Y ⊆ X) := by
    rw [Bool.eq_iff_iff, included, decide_eq_true_eq, Finset.subset_iff]
    simp only [represents.contains_iff, other.contains_iff]
  rw [run, subset]

theorem eq_iff (other : t.Represents Y) : s = t ↔ s.capacity = t.capacity ∧ X = Y := by
  rw [IndexSet.eq_iff, Finset.ext_iff]
  refine and_congr_right fun _ => forall_congr' fun i => ?_
  rw [Bool.eq_iff_iff, represents.contains_iff, other.contains_iff]

end Represents

/-- A set that is made from empty ones by insertions and unions, and the finite set made in the same
way. No operation changes the sets that it is given, and so a copy of a set is the set itself. -/
inductive Made : IndexSet → Finset Nat → Prop where
  | empty (capacity : Nat) : Made (empty capacity) ∅
  | insert {s : IndexSet} {X : Finset Nat} {i : Nat} {grown : Growth} :
      Made s X → s.insert i = .ok grown → Made grown.set (X ∪ {i})
  | union {s t : IndexSet} {X Y : Finset Nat} {grown : Growth} :
      Made s X → Made t Y → s.union t = .ok grown → Made grown.set (X ∪ Y)

theorem Made.represents (made : s.Made X) : s.Represents X := by
  induction made with
  | empty capacity => exact represents_empty capacity
  | @insert s X i grown _ run ih =>
    by_cases inside : i < s.capacity
    · obtain ⟨result, later⟩ := ih.insert inside
      obtain rfl := Except.ok.inj (result.symm.trans run)
      exact later
    · rw [insert_of_le (Nat.not_lt.mp inside)] at run
      cases run
  | @union s t X Y grown _ _ run ih other =>
    by_cases same : t.capacity = s.capacity
    · obtain ⟨result, later⟩ := ih.union other same
      obtain rfl := Except.ok.inj (result.symm.trans run)
      exact later
    · rw [union_of_ne same] at run
      cases run

/-- The set of listed indices is made by inserting them one after another. -/
theorem made_ofList {capacity : Nat} {indices : List Nat} (inside : ∀ i ∈ indices, i < capacity) :
    ∃ s, ofList capacity indices = .ok s ∧ s.capacity = capacity ∧ s.Made indices.toFinset := by
  refine foldlM_ok (fun (s : IndexSet) i => do return (← s.insert i).set) indices (empty capacity)
    (fun seen s => s.capacity = capacity ∧ s.Made seen.toFinset) ⟨rfl, .empty capacity⟩ ?_
  intro seen next rest s split ⟨size, made⟩
  have room : next < s.capacity := size ▸ inside next (by simp [split])
  refine ⟨s.withIndex next room, ?_, size, ?_⟩
  · rw [insert_of_lt room, ok_bind, pure_eq_ok]
  · rw [List.toFinset_append]
    exact .insert made (insert_of_lt room)

/-- The sets and their operations refine finite sets of indices below a fixed capacity. -/
theorem refines_finset (made : s.Made X) :
    s.Represents X ∧
    (∀ i < s.capacity, ∃ later, s.insert i = .ok ⟨later, decide (i ∉ X)⟩ ∧
      later.capacity = s.capacity ∧ later.Represents (X ∪ {i})) ∧
    ∀ t Y, t.Made Y →
      (t.capacity = s.capacity →
        (∃ later, s.union t = .ok ⟨later, decide (X ⊂ X ∪ Y)⟩ ∧
          later.capacity = s.capacity ∧ later.Represents (X ∪ Y)) ∧
        s.isSuperset t = .ok (decide (Y ⊆ X))) ∧
      (s = t ↔ s.capacity = t.capacity ∧ X = Y) := by
  have represents := made.represents
  refine ⟨represents, fun i inside => ?_, fun t Y other => ⟨fun same => ⟨?_, ?_⟩, ?_⟩⟩
  · obtain ⟨run, later⟩ := represents.insert inside
    exact ⟨_, run, rfl, later⟩
  · obtain ⟨run, later⟩ := represents.union other.represents same
    exact ⟨_, run, rfl, later⟩
  · exact represents.isSuperset other.represents same
  · exact represents.eq_iff other.represents

/-- Two sets over four words, the last of which is not full, with members at both ends of words. -/
theorem refines_finset_two : ∃ s t : IndexSet,
    s.Made {63, 64, 199} ∧ t.Made {64} ∧ s.capacity = 200 ∧ t.capacity = 200 ∧
      s.toList = [63, 64, 199] ∧ s.isSuperset t = .ok true ∧ t.isSuperset s = .ok false ∧
      ∃ later, t.union s = .ok ⟨later, true⟩ ∧ later.count = 3 := by
  have inside : ∀ i ∈ [63, 64, 199], i < 200 := by decide
  have inside' : ∀ i ∈ [64], i < 200 := by decide
  obtain ⟨s, _, size, made⟩ := made_ofList inside
  obtain ⟨t, _, size', made'⟩ := made_ofList inside'
  obtain ⟨represents, _, upper⟩ := refines_finset made
  obtain ⟨_, _, lower⟩ := refines_finset made'
  obtain ⟨_, superset⟩ := (upper t _ made').1 (size'.trans size.symm)
  obtain ⟨⟨later, union, _, joined⟩, subset⟩ := (lower s _ made).1 (size.trans size'.symm)
  refine ⟨s, t, made, made', size, size', ?_, superset, subset, later, union, joined.count_eq⟩
  exact represents.toList_eq.trans ((List.toFinset_sort (· ≤ ·) (by decide)).mpr (by decide))

end IndexSet

end ReachingValues
