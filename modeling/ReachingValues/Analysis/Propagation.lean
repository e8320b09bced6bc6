import ReachingValues.Analysis.Definitions
import ReachingValues.Analysis.ReachTable
import ReachingValues.Tree.Walk

/-!
Reaching values flow down a tree. The root starts with the seed, and every node hands to its
children what reaches it together with what it defines itself; so a block never sees its own
definitions. In a dominator tree the parent of a block is passed on every path to the block, and
one walk suffices. If no node is listed twice, a node has its whole set when it is visited, and the
order of the walk decides nothing but when that is.
-/

namespace ReachingValues

namespace Definitions

/-- The number of places that there can be for the sets of a run. The definitions themselves are a
table with a set for each block, so these many can be had. -/
def room (d : Definitions) : Nat := max NodeSets.maxLength d.blockCount

/-- What a node hands to its children. -/
def handedDown (d : Definitions) (capacity : Nat) (sets : NodeSets) (n : Node) :
    Except Fault ValueSet :=
  match d.get? n with
  | none => .ok (sets.held capacity n)
  | some own => do return (← (sets.held capacity n).union own).set

/-- Hands `values` to a child. -/
def deliver (room capacity : Nat) (values : ValueSet) (sets : NodeSets) (child : Node) :
    Except Fault NodeSets :=
  sets.update room capacity child fun held => do return (← held.union values).set

/-- Visits a node. -/
def visit (d : Definitions) (tree : TreeView) (capacity : Nat) (sets : NodeSets) (n : Node) :
    Except Fault NodeSets := do
  let values ← d.handedDown capacity sets n
  (tree.children n).foldlM (deliver d.room capacity values) sets

/-- What is known when no node has been visited: the root holds the seed. -/
def seeded (d : Definitions) (tree : TreeView) (seed : ValueSet) : Except Fault NodeSets :=
  NodeSets.bare.update d.room seed.capacity tree.root fun _ => .ok seed

/-- The values that reach each node of a tree when `seed` reaches its root. -/
def propagate (d : Definitions) (tree : TreeView) (seed : ValueSet) (order : Order) :
    Except Fault ReachTable := do
  let blocks := tree.walk order
  let sets ← blocks.foldlM (d.visit tree seed.capacity) (← d.seeded tree seed)
  return ⟨blocks, sets⟩

end Definitions

end ReachingValues
