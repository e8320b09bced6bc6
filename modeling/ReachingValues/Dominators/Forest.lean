import ReachingValues.Fault
import ReachingValues.Handle

/-!
A growing forest that answers, for a node, which of the nodes between it and its root is ranked
lowest. Every query shortens the links it follows. Links then no longer tell who is the parent of
whom, but roots and answers stay what they were.
-/

namespace ReachingValues

/-- A node without a link is a root. A link leads to some ancestor, and `best` holds a node of
lowest rank among those met from the node up to that ancestor, the ancestor left out. -/
structure Forest where
  link : Array (Option Node)
  best : Array Node

namespace Forest

/-- The forest in which every node is a root. -/
def singletons (nodeCount : Nat) : Forest := ⟨Array.replicate nodeCount none, Array.range nodeCount⟩

/-- Hangs the root `n` below `above`. -/
def attach (f : Forest) (above n : Node) : Except Fault Forest := do
  return { f with link := ← store f.link n (some above) }

/-- Makes `n` skip `above`, to which it is linked: it takes over the link of `above`, and the best
node of `above` where that one ranks lower. -/
def skip (rank : Node → Except Fault Nat) (f : Forest) (n above : Node) : Except Fault Forest := do
  let upper ← fetch f.best above
  let lower ← fetch f.best n
  let best ← if (← rank upper) < (← rank lower) then store f.best n upper else pure f.best
  let link ← store f.link n (← fetch f.link above)
  return ⟨link, best⟩

/-- Shortens the path above `n` from the top down until `n`, if it is not a root itself, is linked
to its root. The first argument bounds the number of links that are followed. -/
def compressWithin (rank : Node → Except Fault Nat) : Nat → Forest → Node → Except Fault Forest
  | 0, _, _ => .error .linkCycle
  | steps + 1, f, n => do
    match ← fetch f.link n with
    | none => return f
    | some above =>
      match ← fetch f.link above with
      | none => return f
      | some _ => (← compressWithin rank steps f above).skip rank n above

/-- A path without repetition follows fewer links than there are nodes. -/
def compress (rank : Node → Except Fault Nat) (f : Forest) (n : Node) : Except Fault Forest :=
  compressWithin rank f.link.size f n

/-- A root answers for itself. Any other node answers with a node of lowest rank between itself and
its root, the root left out. -/
def lowest (rank : Node → Except Fault Nat) (f : Forest) (n : Node) :
    Except Fault (Node × Forest) := do
  match ← fetch f.link n with
  | none => return (n, f)
  | some _ =>
    let f ← f.compress rank n
    return (← fetch f.best n, f)

end Forest

end ReachingValues
