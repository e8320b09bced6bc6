import ReachingValues.Fault
import ReachingValues.Handle

/-!
Directed graphs with labelled nodes. Edges keep the order in which they were added, parallel edges
stay apart, and every edge is recorded at both of its ends. Nothing is ever removed.
-/

namespace ReachingValues

/-- An edge refused because one of its ends is not among the `nodeCount` nodes of the graph. -/
inductive EdgeError where
  | missingSource (source : Node) (nodeCount : Nat)
  | missingTarget (target : Node) (nodeCount : Nat)
  deriving DecidableEq

def EdgeError.message : EdgeError → String
  | .missingSource s count =>
    "source node " ++ Node.text s ++ " does not exist in graph with " ++ toString count ++ " nodes"
  | .missingTarget t count =>
    "target node " ++ Node.text t ++ " does not exist in graph with " ++ toString count ++ " nodes"

/-- A graph as one label, one list of outgoing and one list of incoming edges per node. The last
field ties the two directions together; as the lists of unknown nodes are empty, it also keeps
every recorded end inside the graph. -/
structure Graph (α : Type) where
  labels : Array α
  outgoing : Array (Array Node)
  incoming : Array (Array Node)
  edgeCount : Nat
  outgoing_size : outgoing.size = labels.size
  incoming_size : incoming.size = labels.size
  ends_agree : ∀ s t : Node, t ∈ outgoing[s]?.getD #[] ↔ s ∈ incoming[t]?.getD #[]

namespace Graph

variable {α : Type}

/-- The graph with one node for each label and no edges. -/
def ofLabels (labels : Array α) : Graph α where
  labels := labels
  outgoing := Array.replicate labels.size #[]
  incoming := Array.replicate labels.size #[]
  edgeCount := 0
  outgoing_size := Array.size_replicate
  incoming_size := Array.size_replicate
  ends_agree s t := by simp only [Array.getElem?_replicate]; grind

def empty : Graph α := ofLabels #[]

def nodeCount (g : Graph α) : Nat := g.labels.size

def isEmpty (g : Graph α) : Bool := g.labels.isEmpty

/-- All nodes in the order in which they were added. -/
def nodes (g : Graph α) : List Node := List.range g.nodeCount

def contains (g : Graph α) (n : Node) : Bool := n < g.nodeCount

def label? (g : Graph α) (n : Node) : Option α := g.labels[n]?

/-- The targets of the edges that leave `n`, in the order in which the edges were added; an unknown
node has none. -/
def successors (g : Graph α) (n : Node) : List Node := (g.outgoing[n]?.getD #[]).toList

/-- The sources of the edges that enter `n`, in the order in which the edges were added; an unknown
node has none. -/
def predecessors (g : Graph α) (n : Node) : List Node := (g.incoming[n]?.getD #[]).toList

/-- The successors of a node that the caller promises to be in the graph. -/
def successorsOf (g : Graph α) (n : Node) : Except Fault (List Node) :=
  (fetch g.outgoing n).map Array.toList

/-- The predecessors of a node that the caller promises to be in the graph. -/
def predecessorsOf (g : Graph α) (n : Node) : Except Fault (List Node) :=
  (fetch g.incoming n).map Array.toList

/-- Adds a node, whose handle is the former number of nodes. -/
def addNode (g : Graph α) (a : α) : Node × Graph α :=
  (g.nodeCount,
    { labels := g.labels.push a
      outgoing := g.outgoing.push #[]
      incoming := g.incoming.push #[]
      edgeCount := g.edgeCount
      outgoing_size := by simp [g.outgoing_size]
      incoming_size := by simp [g.incoming_size]
      ends_agree := fun s t => by
        have old := g.ends_agree s t
        have out := g.outgoing_size
        have inc := g.incoming_size
        simp only [Array.getElem?_push]
        grind })

/-- Replaces the label of a node and returns the former one. -/
def relabel (g : Graph α) (n : Node) (a : α) : Option (α × Graph α) :=
  match g.labels[n]? with
  | none => none
  | some old => some (old,
    { g with
      labels := g.labels.setIfInBounds n a
      outgoing_size := by simp [g.outgoing_size]
      incoming_size := by simp [g.incoming_size] })

/-- Adds an edge between two nodes of the graph. When both ends are missing the source is
reported. -/
def addEdge (g : Graph α) (source target : Node) : Except EdgeError (Graph α) :=
  if hs : source < g.nodeCount then
    if ht : target < g.nodeCount then
      .ok
        { labels := g.labels
          outgoing := g.outgoing.modify source (·.push target)
          incoming := g.incoming.modify target (·.push source)
          edgeCount := g.edgeCount + 1
          outgoing_size := by simp [g.outgoing_size]
          incoming_size := by simp [g.incoming_size]
          ends_agree := fun s t => by
            have old := g.ends_agree s t
            have out := g.outgoing_size
            have inc := g.incoming_size
            simp only [nodeCount] at hs ht
            simp only [Array.getElem?_modify]
            grind }
    else .error (.missingTarget target g.nodeCount)
  else .error (.missingSource source g.nodeCount)

end Graph

end ReachingValues
