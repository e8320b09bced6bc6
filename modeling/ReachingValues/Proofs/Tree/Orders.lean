import Mathlib.Data.Nat.Find
import ReachingValues.Proofs.Preorder
import ReachingValues.Proofs.Tree.Walk

/-!
What the two orders come to along a tree. The children of a visited node are new to the walk, so
nothing that waits is ever passed over, and the waiting list alone says what is still to come: depth
first, what is below each of its nodes, node after node; breadth first, its nodes, then all their
children, and so on down the levels.
-/

namespace ReachingValues

namespace TreeView

variable {t : TreeView} {order : Order} {c m n : Node} {visited waiting row next visits : List Node}
  {i j k : Nat}

/-- The nodes that stand so many links below the root, as one row. -/
def level (t : TreeView) : Nat → List Node
  | 0 => [t.root]
  | k + 1 => (t.level k).flatMap t.children

/-- The rows above a level, one after the other. -/
def upper (t : TreeView) (k : Nat) : List Node := (List.range k).flatMap t.level

theorem upper_succ (k : Nat) : t.upper (k + 1) = t.upper k ++ t.level k := by
  rw [upper, upper, List.range_succ, List.flatMap_append, List.flatMap_singleton]

theorem mem_upper : n ∈ t.upper k ↔ ∃ i < k, n ∈ t.level i := by
  simp only [upper, List.mem_flatMap, List.mem_range]

theorem level_add_eq_nil (empty : t.level k = []) (i : Nat) : t.level (k + i) = [] := by
  induction i with
  | zero => exact empty
  | succ i ih => rw [← Nat.add_assoc, level, ih, List.flatMap_nil]

/-- From the root on, pre-order finds what the links lead to. -/
theorem mem_preorder_iff {below : Node → List Node} (same : ∀ n c, c ∈ below n ↔ c ∈ t.children n)
    (visited : Preorder below row visits) : m ∈ visits ↔ ∃ n ∈ row, t.Leads n m := by
  induction visited with
  | done => simp
  | @visit n rest first later _ _ ihInner ihOuter =>
    have inner : m ∈ n :: first ↔ t.Leads n m := by
      rw [List.mem_cons, ihInner]
      constructor
      · rintro (rfl | ⟨c, listed, leads⟩)
        · exact .here
        · exact .down ((same n c).mp listed) leads
      · intro leads
        cases leads with
        | here => exact Or.inl rfl
        | down listed leads => exact Or.inr ⟨_, (same n _).mpr listed, leads⟩
    rw [← List.cons_append, List.mem_append, inner, ihOuter]
    simp only [List.mem_cons, or_and_right, exists_or, exists_eq_left]

namespace Frontier

variable (shaped : t.Shaped)

include shaped

/-- Depth first, the children stand in front of what is left of their parent's row. -/
theorem preorder (frontier : t.Frontier visited waiting) :
    Preorder (fun n => (t.children n).reverse) waiting (t.walkFrom .depthFirst visited waiting) := by
  induction visited, waiting using walkFrom.induct t .depthFirst with
  | case1 visited =>
    rw [walkFrom]
    exact .done
  | case2 visited n rest old =>
    exact absurd (List.mem_append_right rest old) (List.nodup_cons.mp frontier.once).1
  | case3 visited n rest fresh ih =>
    rw [walkFrom, if_neg fresh]
    exact .visit_joined (ih (frontier.visit shaped .depthFirst))

/-- Breadth first, the children wait behind the row, in the order of their parents. -/
theorem walkFrom_row (frontier : t.Frontier visited (row ++ next)) :
    t.walkFrom .breadthFirst visited (row ++ next) =
        row ++ t.walkFrom .breadthFirst (row.reverse ++ visited) (next ++ row.flatMap t.children) ∧
      t.Frontier (row.reverse ++ visited) (next ++ row.flatMap t.children) := by
  induction row generalizing visited next with
  | nil => simpa using frontier
  | cons n rest ih =>
    have frontier : t.Frontier visited (n :: (rest ++ next)) := frontier
    have later := frontier.visit shaped .breadthFirst
    rw [Order.join, List.append_assoc] at later
    obtain ⟨walked, ended⟩ := ih later
    rw [List.append_assoc, ← List.flatMap_cons] at walked ended
    rw [List.reverse_cons, List.append_assoc, List.singleton_append]
    refine ⟨?_, ended⟩
    rw [List.cons_append, frontier.walkFrom_cons, Order.join, List.append_assoc, walked,
      List.cons_append]

end Frontier

namespace Shaped

variable (shaped : t.Shaped)

include shaped

theorem preorder_walk :
    Preorder (fun n => (t.children n).reverse) [t.root] (t.walk .depthFirst) :=
  (Frontier.initial t).preorder shaped

/-- What the links from a node lead to is visited in one go, the node first. -/
theorem exists_segment (led : t.Leads t.root n) :
    ∃ front segment back, t.walk .depthFirst = front ++ n :: segment ++ back ∧
      ∀ m, m ∈ n :: segment ↔ t.Leads n m := by
  obtain ⟨front, whole, back, split, alone⟩ :=
    shaped.preorder_walk.exists_segment (mem_walk_iff.mpr led)
  obtain ⟨segment, rfl⟩ := alone.exists_cons
  refine ⟨front, segment, back, split, fun m => ?_⟩
  rw [mem_preorder_iff (fun p c => List.mem_reverse) alone]
  simp

/-- Once the upper rows have been visited, the next one waits. -/
theorem walk_upper (k : Nat) :
    t.walk .breadthFirst =
        t.upper k ++ t.walkFrom .breadthFirst (t.upper k).reverse (t.level k) ∧
      t.Frontier (t.upper k).reverse (t.level k) := by
  induction k with
  | zero => exact ⟨rfl, Frontier.initial t⟩
  | succ k ih =>
    obtain ⟨walked, frontier⟩ := ih
    rw [← (t.level k).append_nil] at frontier
    obtain ⟨onward, ended⟩ := frontier.walkFrom_row shaped
    rw [List.append_nil] at onward
    rw [List.nil_append, ← List.reverse_append, ← upper_succ, ← level] at onward ended
    refine ⟨?_, ended⟩
    rw [walked, onward, upper_succ, List.append_assoc]

theorem level_unique (one : n ∈ t.level i) (other : n ∈ t.level j) : i = j := by
  have apart : ∀ {i j}, n ∈ t.level i → n ∈ t.level j → ¬ i < j := fun {i j} one other less => by
    have above : n ∈ (t.upper j).reverse := List.mem_reverse.mpr (mem_upper.mpr ⟨i, less, one⟩)
    have once := List.nodup_append.mp (shaped.walk_upper j).2.once
    exact once.2.2 n other n above rfl
  exact Nat.le_antisymm (Nat.not_lt.mp (apart other one)) (Nat.not_lt.mp (apart one other))

/-- Each row that is not empty adds to the length of the walk. -/
theorem exists_level_eq_nil : ∃ k, t.level k = [] := by
  refine Classical.byContradiction fun none => ?_
  have grows : ∀ k, k ≤ (t.upper k).length := fun k => by
    induction k with
    | zero => exact Nat.zero_le _
    | succ k ih =>
      have more : 0 < (t.level k).length :=
        List.length_pos_iff.mpr fun empty => none ⟨k, empty⟩
      rw [upper_succ, List.length_append]
      omega
  have bounded := congrArg List.length (shaped.walk_upper ((t.walk .breadthFirst).length + 1)).1
  have longer := grows ((t.walk .breadthFirst).length + 1)
  rw [List.length_append] at bounded
  omega

/-- The walk goes down the levels and ends with the lowest one. -/
theorem exists_height :
    ∃ height, t.walk .breadthFirst = t.upper height ∧ ∀ k, t.level k = [] ↔ height ≤ k := by
  have ends := shaped.exists_level_eq_nil
  have empty := Nat.find_spec ends
  refine ⟨Nat.find ends, ?_, fun k => ⟨Nat.find_min' ends, fun below => ?_⟩⟩
  · have walked := (shaped.walk_upper (Nat.find ends)).1
    rwa [empty, walkFrom, List.append_nil] at walked
  · obtain ⟨i, rfl⟩ := Nat.exists_eq_add_of_le below
    exact level_add_eq_nil empty i

/-- No level is entered before the levels above it are done. -/
theorem upper_pairwise (k : Nat) :
    (t.upper k).Pairwise fun a b => ∀ i j, a ∈ t.level i → b ∈ t.level j → i ≤ j := by
  refine List.pairwise_flatMap.mpr ⟨fun k _ => ?_, ?_⟩
  · refine List.pairwise_of_forall_mem_list fun a atA b atB i j one other => ?_
    exact Nat.le_of_eq ((shaped.level_unique one atA).trans (shaped.level_unique atB other))
  · refine List.pairwise_lt_range.imp fun less a atA b atB i j one other => ?_
    rw [shaped.level_unique one atA, shaped.level_unique other atB]
    exact Nat.le_of_lt less

end Shaped

end TreeView

end ReachingValues
