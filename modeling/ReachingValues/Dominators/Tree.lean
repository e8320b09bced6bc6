import ReachingValues.Dominators.Semidominators

/-!
The dominator tree of a graph for one entry node: who is reached from there, who dominates whom,
and the tree of immediate dominators read upwards and downwards.
-/

namespace ReachingValues

/-- The nodes below each node, in ascending order, as told by the links upwards. -/
def childLists (links : Array (Option Node)) : Array (List Node) :=
  (List.range links.size).foldr
    (fun child lists =>
      match links[child]? with
      | some (some above) => lists.modify above (child :: ·)
      | _ => lists)
    (Array.replicate links.size [])

/-- Every reached node other than the entry is linked to its immediate dominator. -/
structure DominatorTree where
  entry : Node
  links : Array (Option Node)
  children : Array (List Node)
  children_eq : children = childLists links

namespace DominatorTree

/-- The number of nodes of the graph, reached or not. -/
def nodeCount (t : DominatorTree) : Nat := t.links.size

/-- The immediate dominator; the entry, and nodes that it does not reach, have none. -/
def immediateDominator (t : DominatorTree) (n : Node) : Option Node := t.links[n]?.getD none

/-- Whether some path leads from the entry to `n`. -/
def isReachable (t : DominatorTree) (n : Node) : Bool :=
  n < t.nodeCount && (n == t.entry || (t.immediateDominator n).isSome)

def reachable (t : DominatorTree) : List Node := (List.range t.nodeCount).filter t.isReachable

def reachableCount (t : DominatorTree) : Nat := (List.range t.nodeCount).countP t.isReachable

/-- The nodes whose immediate dominator is `n`, in ascending order. -/
def childrenOf (t : DominatorTree) (n : Node) : List Node := t.children[n]?.getD []

/-- The nodes met on the way up from `n`, at most as many as the first argument says. -/
def upwardsWithin (t : DominatorTree) : Nat → Node → List Node
  | 0, _ => []
  | steps + 1, n =>
    n :: match t.immediateDominator n with
      | none => []
      | some above => t.upwardsWithin steps above

/-- The dominators of `n` from `n` itself up to the entry; none if `n` is not reached. No way up is
longer than there are nodes. -/
def dominators (t : DominatorTree) (n : Node) : List Node :=
  if t.isReachable n then t.upwardsWithin t.nodeCount n else []

/-- Whether `a` dominates `b`. A node that is not reached neither dominates nor is dominated. -/
def dominates (t : DominatorTree) (a b : Node) : Bool :=
  t.isReachable a && t.isReachable b && (t.dominators b).contains a

def strictlyDominates (t : DominatorTree) (a b : Node) : Bool := a != b && t.dominates a b

end DominatorTree

/-- The dominator tree for the given entry. An entry outside the graph reaches nothing. -/
def Graph.dominatorTree {α : Type} (g : Graph α) (entry : Node) : Except Fault DominatorTree := do
  if g.contains entry then
    let tree ← SpanningTree.ofGraph g entry
    let state ← Semidominators.ofTree g tree
    return ⟨entry, ← state.settled tree, _, rfl⟩
  else return ⟨entry, Array.replicate g.nodeCount none, _, rfl⟩

end ReachingValues
