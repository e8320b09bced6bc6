import ReachingValues.Dominators.Tree
import ReachingValues.Graph.OpenCost

/-!
What the analysis asks of a tree: its root, the nodes listed below a node, and the node above a
node. A view promises nothing else. Its two directions may contradict each other, nodes may be
listed twice and links may run in circles; all it has is a finite number of links.
-/

namespace ReachingValues

/-- A tree as it presents itself, well formed or not. Only nodes among `inner` list others below
them. -/
structure TreeView where
  root : Node
  children : Node → List Node
  parent : Node → Option Node
  inner : List Node
  children_eq_nil : ∀ n, n ∉ inner → children n = []

namespace TreeView

/-- Following the lists of children from the first node, possibly for no step, finds the second. -/
inductive Leads (t : TreeView) : Node → Node → Prop where
  | here {n : Node} : Leads t n n
  | down {n child m : Node} : child ∈ t.children n → Leads t child m → Leads t n m

end TreeView

/-- A computed dominator tree as a view. -/
def DominatorTree.view (t : DominatorTree) : TreeView where
  root := t.entry
  children := t.childrenOf
  parent := t.immediateDominator
  inner := List.range t.children.size
  children_eq_nil n outside := by
    have beyond : t.children.size ≤ n := by simpa using outside
    simp [childrenOf, beyond]

end ReachingValues
