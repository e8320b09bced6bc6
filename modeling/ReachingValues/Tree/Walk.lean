import ReachingValues.Tree.View

/-!
The order in which a tree is walked from its root. Nodes wait in a list, the children of a visited
node join the list at one of its ends, and a node that comes up a second time, as happens only in a
malformed tree, is passed over. Either way a node comes after one that lists it.
-/

namespace ReachingValues

/-- How the children of a visited node join the nodes that wait. -/
inductive Order where
  /-- The child added last is visited next. -/
  | depthFirst
  /-- The node that waited longest is visited next. -/
  | breadthFirst
  deriving DecidableEq

namespace Order

def all : List Order := [.depthFirst, .breadthFirst]

def name : Order → String
  | .depthFirst => "DepthFirst"
  | .breadthFirst => "BreadthFirst"

/-- The waiting nodes, the next one first, after children have joined them. -/
def join (order : Order) (children waiting : List Node) : List Node :=
  match order with
  | .depthFirst => children.reverse ++ waiting
  | .breadthFirst => waiting ++ children

theorem join_length (order : Order) (children waiting : List Node) :
    (order.join children waiting).length = children.length + waiting.length := by
  cases order <;> simp [join, Nat.add_comm]

end Order

namespace TreeView

/-- What a walk still has to pay for once the nodes in `visited` are visited, see `openCost`. -/
def remainingCost (t : TreeView) (visited : List Node) : Nat :=
  openCost (fun n => !visited.contains n) (fun n => (t.children n).length) t.inner

theorem remainingCost_visit (t : TreeView) {visited : List Node} {n : Node} (fresh : n ∉ visited) :
    t.remainingCost (n :: visited) + (t.children n).length ≤ t.remainingCost visited := by
  have closing : ∀ m, (!(n :: visited).contains m) = true → (!visited.contains m) = true := by
    intro m; simp
  by_cases member : n ∈ t.inner
  · have paid : t.remainingCost (n :: visited) + (t.children n).length + 1 ≤
        t.remainingCost visited :=
      openCost_close member (by simp [fresh]) (by simp) closing
    omega
  · rw [t.children_eq_nil n member, List.length_nil, Nat.add_zero]
    exact openCost_le closing

/-- The nodes visited from now on, when `visited` have been and `waiting` are due. -/
def walkFrom (t : TreeView) (order : Order) (visited waiting : List Node) : List Node :=
  match waiting with
  | [] => []
  | n :: rest =>
    if n ∈ visited then t.walkFrom order visited rest
    else n :: t.walkFrom order (n :: visited) (order.join (t.children n) rest)
termination_by t.remainingCost visited + waiting.length
decreasing_by
  · simp
  · rename_i fresh
    have paid := t.remainingCost_visit fresh
    simp only [Order.join_length, List.length_cons]
    omega

/-- All nodes below the root and the root itself, in the order of the walk. -/
def walk (t : TreeView) (order : Order) : List Node := t.walkFrom order [] [t.root]

end TreeView

end ReachingValues
