import ReachingValues.Graph.Basic

/-!
Depth-first enumeration of the nodes reachable from a start node. A node is marked when it is put
on the stack, not when it is taken from it, so each node is put there at most once and the number
of unmarked and stacked nodes together falls with every step.
-/

namespace ReachingValues

namespace Graph

variable {α : Type}

/-- Moves the unmarked ones among `targets` to the top of the stack so that the first of them ends
up on top. Of a target that is listed twice the last occurrence counts. -/
def stackTargets (unmarked stack targets : List Node) : List Node × List Node :=
  targets.foldr
    (fun t state => if t ∈ state.1 then (state.1.erase t, t :: state.2) else state)
    (unmarked, stack)

theorem stackTargets_cons (unmarked stack : List Node) (t : Node) (targets : List Node) :
    stackTargets unmarked stack (t :: targets) =
      if t ∈ (stackTargets unmarked stack targets).1 then
        ((stackTargets unmarked stack targets).1.erase t,
          t :: (stackTargets unmarked stack targets).2)
      else stackTargets unmarked stack targets :=
  rfl

/-- Stacking loses no node. -/
theorem stackTargets_length (unmarked stack targets : List Node) :
    (stackTargets unmarked stack targets).1.length +
        (stackTargets unmarked stack targets).2.length = unmarked.length + stack.length := by
  induction targets with
  | nil => rfl
  | cons t rest ih =>
    rw [stackTargets_cons]
    split
    · rename_i member
      have positive := List.length_pos_of_mem member
      simp only [List.length_erase_of_mem member, List.length_cons]
      omega
    · exact ih

/-- The nodes in the order in which they are taken from the stack. -/
def depthFirstFrom (g : Graph α) (unmarked stack : List Node) : List Node :=
  match stack with
  | [] => []
  | n :: rest =>
    n :: g.depthFirstFrom (stackTargets unmarked rest (g.successors n)).1
      (stackTargets unmarked rest (g.successors n)).2
termination_by unmarked.length + stack.length
decreasing_by
  have kept := stackTargets_length unmarked rest (g.successors n)
  simp only [List.length_cons]
  omega

/-- The nodes reachable from `start`, which comes first; none if `start` is not in the graph. -/
def depthFirst (g : Graph α) (start : Node) : List Node :=
  if g.contains start then g.depthFirstFrom (g.nodes.erase start) [start] else []

end Graph

end ReachingValues
