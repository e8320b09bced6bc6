import ReachingValues.Graph.Basic
import ReachingValues.Graph.OpenCost

/-!
The depth-first spanning tree of the nodes reachable from an entry, with its nodes numbered from 1
in the order in which the search meets them. A node is numbered when it is taken from the stack.
It may wait there several times; the copy on top is the latest, and the node from which that copy
was put there becomes its parent in the tree. The tree is therefore a genuine depth-first tree:
an edge to a node of higher number goes to a descendant.
-/

namespace ReachingValues

/-- A part of a spanning tree. The number of a node that the search has not met is 0. -/
structure SpanningTree where
  number : Array Nat
  parent : Array (Option Node)
  /-- The numbered nodes; the one at index `i` has number `i + 1`. -/
  order : Array Node
  parent_size : parent.size = number.size

namespace SpanningTree

variable {α : Type}

/-- The tree before the search, over the given number of nodes. -/
def unexplored (nodeCount : Nat) : SpanningTree where
  number := Array.replicate nodeCount 0
  parent := Array.replicate nodeCount none
  order := #[]
  parent_size := by simp

/-- Gives `n` the next number and hangs it below `above`. -/
def place (s : SpanningTree) (above : Option Node) (n : Node) (h : n < s.number.size) :
    SpanningTree where
  number := s.number.set n (s.order.size + 1)
  parent := s.parent.set n above (by rw [s.parent_size]; exact h)
  order := s.order.push n
  parent_size := by simp [s.parent_size]

def isUnnumbered (s : SpanningTree) (n : Node) : Bool := s.number[n]? == some 0

/-- What the search still has to pay for, see `openCost`. -/
def remainingCost (g : Graph α) (s : SpanningTree) : Nat :=
  openCost s.isUnnumbered (fun n => (g.successors n).length) (List.range s.number.size)

theorem remainingCost_place (g : Graph α) (s : SpanningTree) (above : Option Node) {n : Node}
    (h : n < s.number.size) (unnumbered : s.number[n] = 0) :
    remainingCost g (s.place above n h) + (g.successors n).length + 1 ≤ remainingCost g s := by
  have size : (s.place above n h).number.size = s.number.size := by simp [place]
  unfold remainingCost
  rw [size]
  apply openCost_close (List.mem_range.mpr h)
  · simp [isUnnumbered, h, unnumbered]
  · simp [isUnnumbered, place, h]
  · intro m later
    simp only [isUnnumbered, place, Array.getElem?_set] at later ⊢
    by_cases same : n = m
    · subst same; simp at later
    · simpa [same] using later

/-- Continues the search from a stack of nodes, each with the node from which it was put there. -/
def explore (g : Graph α) (s : SpanningTree) (stack : List (Option Node × Node)) :
    Except Fault SpanningTree :=
  match stack with
  | [] => .ok s
  | (above, n) :: rest =>
    if h : n < s.number.size then
      if unnumbered : s.number[n] = 0 then
        explore g (s.place above n h) (((g.successors n).map (some n, ·)).reverse ++ rest)
      else explore g s rest
    else .error (.indexOutOfRange n s.number.size)
termination_by s.remainingCost g + stack.length
decreasing_by
  · have paid := remainingCost_place g s above h unnumbered
    simp only [List.length_append, List.length_reverse, List.length_map, List.length_cons]
    omega
  · simp

/-- The spanning tree of the nodes reachable from `entry`. -/
def ofGraph (g : Graph α) (entry : Node) : Except Fault SpanningTree :=
  explore g (unexplored g.nodeCount) [(none, entry)]

/-- The numbered nodes other than the entry, in the order of their numbers. -/
def belowEntry (s : SpanningTree) : List Node := s.order.toList.tail

end SpanningTree

end ReachingValues
