import ReachingValues.Handle

/-!
Visits in pre-order, as a recursion makes them that goes through a row of siblings and below each of
them through the row of its children. Nothing is said about nodes that stand in several rows; over
links that run in a circle the recursion has no end, and there are no such visits.
-/

namespace ReachingValues

/-- The visits of a recursion through the nodes of a row, each followed by what is below it. -/
inductive Preorder (below : Node → List Node) : List Node → List Node → Prop
  | done : Preorder below [] []
  | visit {n : Node} {rest first later : List Node} : Preorder below (below n) first →
      Preorder below rest later → Preorder below (n :: rest) (n :: (first ++ later))

namespace Preorder

variable {below : Node → List Node} {n : Node} {row left right rest visits first later : List Node}

theorem of_append (visited : Preorder below (left ++ right) visits) :
    ∃ first later, visits = first ++ later ∧ Preorder below left first ∧
      Preorder below right later := by
  induction left generalizing visits with
  | nil => exact ⟨[], visits, rfl, .done, visited⟩
  | cons n rest ih =>
    cases visited with
    | visit inner outer =>
      obtain ⟨first, later, rfl, onward, last⟩ := ih outer
      exact ⟨_, later, by rw [List.cons_append, List.append_assoc], .visit inner onward, last⟩

/-- With the children in front of what is left of the row, one row does for both. -/
theorem visit_joined (visited : Preorder below (below n ++ rest) visits) :
    Preorder below (n :: rest) (n :: visits) := by
  obtain ⟨first, later, rfl, inner, outer⟩ := of_append visited
  exact .visit inner outer

/-- A recursion makes its visits in one order. -/
theorem unique (one : Preorder below row first) (other : Preorder below row later) :
    first = later := by
  induction one generalizing later with
  | done => cases other; rfl
  | visit _ _ ihInner ihOuter =>
    cases other with
    | visit inner outer => rw [ihInner inner, ihOuter outer]

/-- What is below a node is visited in one go, right after the node. -/
theorem exists_segment (visited : Preorder below row visits) (member : n ∈ visits) :
    ∃ front segment back, visits = front ++ segment ++ back ∧ Preorder below [n] segment := by
  induction visited with
  | done => cases member
  | @visit top rest first later inner _ ihInner ihOuter =>
    rcases List.mem_cons.mp member with rfl | member
    · exact ⟨[], n :: (first ++ []), later, by simp, .visit inner .done⟩
    · rcases List.mem_append.mp member with within | after
      · obtain ⟨front, segment, back, rfl, alone⟩ := ihInner within
        exact ⟨top :: front, segment, back ++ later, by simp, alone⟩
      · obtain ⟨front, segment, back, rfl, alone⟩ := ihOuter after
        exact ⟨top :: (first ++ front), segment, back, by simp, alone⟩

theorem exists_cons (visited : Preorder below (n :: rest) visits) : ∃ later, visits = n :: later := by
  cases visited
  exact ⟨_, rfl⟩

theorem exists_below (visited : Preorder below [n] visits) :
    ∃ inner, visits = n :: inner ∧ Preorder below (below n) inner := by
  cases visited with
  | visit inner rest =>
    cases rest
    exact ⟨_, by rw [List.append_nil], inner⟩

end Preorder

end ReachingValues
