import ReachingValues.Tree.Defect
import ReachingValues.Tree.Walk

/-!
Trees grown by hand, one child at a time. Nodes come in any order and with gaps; the tree keeps a
place for every handle up to the highest one it has held, and these places are part of its
identity.
-/

namespace ReachingValues

/-- A node of a grown tree. The children stand in the order in which they were added. -/
structure TreeNode where
  parent : Option Node
  children : List Node
  deriving DecidableEq

structure GrownTree where
  root : Node
  places : Array (Option TreeNode)
  deriving DecidableEq

namespace GrownTree

def node? (t : GrownTree) (n : Node) : Option TreeNode := t.places[n]?.getD none

def contains (t : GrownTree) (n : Node) : Bool := (t.node? n).isSome

def parent (t : GrownTree) (n : Node) : Option Node := (t.node? n).bind (·.parent)

def children (t : GrownTree) (n : Node) : List Node := ((t.node? n).map (·.children)).getD []

/-- The number of nodes in the tree. -/
def size (t : GrownTree) : Nat := t.places.countP Option.isSome

/-- The tree with the root alone. -/
def single (root : Node) : GrownTree where
  root := root
  places := (lengthen #[] (root + 1) none).setIfInBounds root (some ⟨none, []⟩)

/-- Puts `child` below `parent` without a check. -/
def attach (t : GrownTree) (parent child : Node) : GrownTree where
  root := t.root
  places :=
    ((lengthen t.places (child + 1) none).setIfInBounds child
      (some ⟨some parent, t.children child⟩)).modify parent
        (·.map fun p => { p with children := p.children ++ [child] })

/-- Adds a new node below one that is in the tree. When both are wrong the parent is reported. -/
def addChild (t : GrownTree) (parent child : Node) : Except TreeDefect GrownTree :=
  if t.contains parent then
    if t.contains child then .error (.childPresent child) else .ok (t.attach parent child)
  else .error (.parentMissing parent child)

/-- The shape of a computed dominator tree. -/
def ofDominators (t : DominatorTree) : GrownTree :=
  (t.view.walk .depthFirst).foldl
    (fun copy n => (t.childrenOf n).foldl (fun copy child => copy.attach n child) copy)
    (single t.entry)

def view (t : GrownTree) : TreeView where
  root := t.root
  children := t.children
  parent := t.parent
  inner := List.range t.places.size
  children_eq_nil n outside := by
    have beyond : t.places.size ≤ n := by simpa using outside
    simp [children, node?, beyond]

end GrownTree

end ReachingValues
