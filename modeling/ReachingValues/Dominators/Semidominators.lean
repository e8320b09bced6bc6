import ReachingValues.Dominators.Forest
import ReachingValues.Dominators.SpanningTree

/-!
Immediate dominators by way of semidominators. The semidominator of a node is the lowest numbered
node from which a path leads to it whose inner nodes all have higher numbers. The nodes are handled
from the highest number down. By then every node of higher number is in the forest, which finds the
semidominator as a minimum over the edges that enter the node. A node waits at its semidominator
until the path between the two is in the forest, and then either learns its dominator or the node
that has the same one. A last pass in ascending order settles the latter.
-/

namespace ReachingValues

/-- The state of the computation. -/
structure Semidominators where
  semi : Array Node
  forest : Forest
  /-- For each node, those that wait there to learn their dominator, the latest first. -/
  waiting : Array (List Node)
  /-- The immediate dominator, or until the last pass a node that has the same one. -/
  dominator : Array (Option Node)

namespace Semidominators

variable {α : Type}

/-- Every node is its own semidominator until an edge shows a lower one. -/
def initial (nodeCount : Nat) : Semidominators where
  semi := Array.range nodeCount
  forest := .singletons nodeCount
  waiting := Array.replicate nodeCount []
  dominator := Array.replicate nodeCount none

/-- The number of the semidominator of `n`. -/
def rank (tree : SpanningTree) (semi : Array Node) (n : Node) : Except Fault Nat := do
  fetch tree.number (← fetch semi n)

/-- The node of lowest rank between `n` and the root of its tree in the forest. -/
def lowest (tree : SpanningTree) (s : Semidominators) (n : Node) :
    Except Fault (Node × Semidominators) := do
  let (low, forest) ← s.forest.lowest (rank tree s.semi) n
  return (low, { s with forest })

/-- Takes the edge from `source` to `n` into account. An edge from a node that the entry does not
reach says nothing. -/
def considerEdge (tree : SpanningTree) (n : Node) (s : Semidominators) (source : Node) :
    Except Fault Semidominators := do
  if (← fetch tree.number source) = 0 then return s
  let (low, s) ← s.lowest tree source
  if (← rank tree s.semi low) < (← rank tree s.semi n) then
    return { s with semi := ← store s.semi n (← fetch s.semi low) }
  else return s

/-- Lets `n` wait at its semidominator. -/
def wait (s : Semidominators) (n : Node) : Except Fault Semidominators := do
  let semi ← fetch s.semi n
  return { s with waiting := ← store s.waiting semi (n :: (← fetch s.waiting semi)) }

/-- Answers the node `n` that waits at `semi`: no node in between has a lower semidominator, so
`semi` dominates it, or the one that has the lowest shares its dominator. -/
def answer (tree : SpanningTree) (semi : Node) (s : Semidominators) (n : Node) :
    Except Fault Semidominators := do
  let (low, s) ← s.lowest tree n
  let found := if (← fetch s.semi low) = (← fetch s.semi n) then semi else low
  return { s with dominator := ← store s.dominator n (some found) }

/-- Answers all nodes that wait at `semi`, in the order in which they came there. -/
def release (tree : SpanningTree) (s : Semidominators) (semi : Node) :
    Except Fault Semidominators := do
  let released ← fetch s.waiting semi
  released.reverse.foldlM (answer tree semi) { s with waiting := ← store s.waiting semi [] }

/-- Handles `n`, all nodes of higher number being done. -/
def handle (g : Graph α) (tree : SpanningTree) (s : Semidominators) (n : Node) :
    Except Fault Semidominators := do
  match ← fetch tree.parent n with
  | none => .error (.missingLink n)
  | some parent =>
    let s ← (g.predecessors n).foldlM (considerEdge tree n) s
    let s ← s.wait n
    release tree { s with forest := ← s.forest.attach parent n } parent

/-- Replaces a node that merely shares the dominator of `n` by that dominator. -/
def settle (semi : Array Node) (dominator : Array (Option Node)) (n : Node) :
    Except Fault (Array (Option Node)) := do
  match ← fetch dominator n with
  | none => .error (.missingLink n)
  | some found =>
    if found = (← fetch semi n) then return dominator
    else store dominator n (← fetch dominator found)

/-- The state after all nodes below the entry are handled. -/
def ofTree (g : Graph α) (tree : SpanningTree) : Except Fault Semidominators :=
  tree.belowEntry.reverse.foldlM (handle g tree) (initial g.nodeCount)

/-- The immediate dominators; the entry, and nodes that it does not reach, have none. -/
def settled (tree : SpanningTree) (s : Semidominators) : Except Fault (Array (Option Node)) :=
  tree.belowEntry.foldlM (settle s.semi) s.dominator

end Semidominators

end ReachingValues
