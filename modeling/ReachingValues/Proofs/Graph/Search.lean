import ReachingValues.Graph.Search
import ReachingValues.Proofs.Graph.Paths

/-!
The enumeration lists exactly what the start reaches. A node leaves the unmarked ones only for the
stack, so whatever an enumerated node has an edge to was marked before or is enumerated as well.
-/

namespace ReachingValues

namespace Graph

variable {α : Type} {g : Graph α} {start n t : Node} {unmarked stack targets : List Node}

section StackTargets

theorem stackTargets_stack_subset : stack ⊆ (stackTargets unmarked stack targets).2 := by
  induction targets with
  | nil => exact fun _ member => member
  | cons head rest ih =>
    rw [stackTargets_cons]
    split
    · exact fun _ member => List.mem_cons_of_mem _ (ih member)
    · exact ih

theorem mem_of_mem_stackTargets (member : t ∈ (stackTargets unmarked stack targets).2) :
    t ∈ targets ∨ t ∈ stack := by
  induction targets with
  | nil => exact Or.inr member
  | cons head rest ih =>
    have later : t ∈ (stackTargets unmarked stack rest).2 → t ∈ head :: rest ∨ t ∈ stack :=
      fun old => (ih old).imp_left (List.mem_cons_of_mem _)
    rw [stackTargets_cons] at member
    split at member
    · rcases List.mem_cons.mp member with rfl | old
      · exact Or.inl List.mem_cons_self
      · exact later old
    · exact later member

/-- What is no longer unmarked has been stacked. -/
theorem stackTargets_keeps (fresh : t ∈ unmarked) :
    t ∈ (stackTargets unmarked stack targets).1 ∨ t ∈ (stackTargets unmarked stack targets).2 := by
  induction targets with
  | nil => exact Or.inl fresh
  | cons head rest ih =>
    rw [stackTargets_cons]
    split
    · by_cases same : t = head
      · exact Or.inr (same ▸ List.mem_cons_self)
      · exact ih.imp (List.mem_erase_of_ne same).mpr (List.mem_cons_of_mem _)
    · exact ih

theorem mem_stackTargets (target : t ∈ targets) (fresh : t ∈ unmarked) :
    t ∈ (stackTargets unmarked stack targets).2 := by
  induction targets with
  | nil => cases target
  | cons head rest ih =>
    rw [stackTargets_cons]
    by_cases same : t = head
    · subst same
      split
      · exact List.mem_cons_self
      · rename_i taken
        exact (stackTargets_keeps fresh).resolve_left taken
    · have old := ih (by simpa [same] using target)
      split
      · exact List.mem_cons_of_mem _ old
      · exact old

end StackTargets

theorem stack_subset_depthFirstFrom : stack ⊆ g.depthFirstFrom unmarked stack := by
  induction unmarked, stack using depthFirstFrom.induct g with
  | case1 unmarked => exact fun _ member => nomatch member
  | case2 unmarked n rest ih =>
    rw [depthFirstFrom]
    intro t member
    rcases List.mem_cons.mp member with rfl | waiting
    · exact List.mem_cons_self
    · exact List.mem_cons_of_mem _ (ih (stackTargets_stack_subset waiting))

theorem depthFirstFrom_reached (reached : ∀ n ∈ stack, g.Reaches start n)
    (member : t ∈ g.depthFirstFrom unmarked stack) : g.Reaches start t := by
  induction unmarked, stack using depthFirstFrom.induct g with
  | case1 unmarked => rw [depthFirstFrom] at member; cases member
  | case2 unmarked n rest ih =>
    have atN := reached n List.mem_cons_self
    rw [depthFirstFrom] at member
    rcases List.mem_cons.mp member with rfl | later
    · exact atN
    · refine ih (fun m waiting => ?_) later
      rcases mem_of_mem_stackTargets waiting with edge | old
      · exact atN.step edge
      · exact reached m (List.mem_cons_of_mem _ old)

/-- An unmarked node that an enumerated one has an edge to is enumerated. -/
theorem depthFirstFrom_closed (member : n ∈ g.depthFirstFrom unmarked stack)
    (edge : t ∈ g.successors n) (fresh : t ∈ unmarked) : t ∈ g.depthFirstFrom unmarked stack := by
  induction unmarked, stack using depthFirstFrom.induct g with
  | case1 unmarked => rw [depthFirstFrom] at member; cases member
  | case2 unmarked top rest ih =>
    rw [depthFirstFrom] at member ⊢
    refine List.mem_cons_of_mem _ ?_
    rcases List.mem_cons.mp member with rfl | later
    · exact stack_subset_depthFirstFrom (mem_stackTargets edge fresh)
    · rcases stackTargets_keeps fresh with still | stacked
      · exact ih later still
      · exact stack_subset_depthFirstFrom stacked

theorem mem_depthFirst_iff : n ∈ g.depthFirst start ↔ g.Reaches start n := by
  unfold depthFirst
  split
  · rename_i inside
    constructor
    · refine depthFirstFrom_reached fun m member => ?_
      rw [List.mem_singleton.mp member]
      exact .refl inside
    · intro reach
      have first : start ∈ g.depthFirstFrom (g.nodes.erase start) [start] :=
        stack_subset_depthFirstFrom List.mem_cons_self
      refine reach.induct (fun m t member edge => ?_) first
      by_cases same : t = start
      · exact same ▸ first
      · refine depthFirstFrom_closed member edge ((List.mem_erase_of_ne same).mpr ?_)
        exact List.mem_range.mpr (lt_nodeCount_of_mem_successors edge).2
  · rename_i outside
    constructor
    · intro member
      cases member
    · intro reach
      exact absurd reach.contains.1 outside

end Graph

end ReachingValues
