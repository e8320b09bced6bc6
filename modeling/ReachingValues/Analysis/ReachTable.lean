import ReachingValues.Error
import ReachingValues.IndexSet.Basic

/-!
The result of an analysis: the values that reach each block that the walk came to. A block that it
did not come to has no set at all, which is not the same as an empty one.
-/

namespace ReachingValues

/-- Sets attached to nodes, in a table that has a place for each handle up to the highest one that
got a set. -/
structure NodeSets where
  entries : Array (Option ValueSet)

namespace NodeSets

/-- The number of places up to which a table can grow. Together they take less than half of the
bytes that 64 bits can address, and each takes 32. -/
def maxLength : Nat := (UInt64.size / 2 - 1) / 32

/-- Nothing has been attached yet. -/
def bare : NodeSets := ⟨#[]⟩

def get? (s : NodeSets) (b : Node) : Option ValueSet := s.entries[b]?.getD none

/-- The set of a node, empty before anything was attached to it. -/
def held (s : NodeSets) (capacity : Nat) (b : Node) : ValueSet := (s.get? b).getD (.empty capacity)

/-- Changes the set of a node, in a table that can have `room` places. -/
def update (s : NodeSets) (room capacity : Nat) (b : Node)
    (change : ValueSet → Except Fault ValueSet) : Except Fault NodeSets := do
  let entries ← reserve s.entries room b none
  let values ← change ((← fetch entries b).getD (.empty capacity))
  return ⟨← store entries b (some values)⟩

end NodeSets

/-- The blocks in the order in which they were visited, and their sets. -/
structure ReachTable where
  blocks : List Node
  sets : NodeSets

namespace ReachTable

/-- The values that reach a block; nothing if the block itself was not reached. -/
def get? (t : ReachTable) (b : Node) : Option ValueSet := t.sets.get? b

/-- The values that reach a block, which is an error to ask of a block that was not reached. -/
def lookup (t : ReachTable) (b : Node) : Except Error ValueSet :=
  match t.get? b with
  | some values => .ok values
  | none => .error (.unreached b)

def isReached (t : ReachTable) (b : Node) : Bool := (t.get? b).isSome

/-- Whether a value reaches a block. -/
def contains (t : ReachTable) (b : Node) (v : ValueId) : Bool := (t.get? b).any (·.contains v)

def size (t : ReachTable) : Nat := t.blocks.length

def isEmpty (t : ReachTable) : Bool := t.blocks.isEmpty

/-- The blocks with their sets, in the order of the visits. -/
def toList (t : ReachTable) : List (Node × ValueSet) :=
  t.blocks.filterMap fun b => (t.get? b).map (b, ·)

/-- Whether two results have the same blocks with the same sets, in whatever order they were
visited. -/
def sameContent (t u : ReachTable) : Bool :=
  t.size == u.size && t.toList.all fun entry => u.get? entry.1 == some entry.2

end ReachTable

end ReachingValues
