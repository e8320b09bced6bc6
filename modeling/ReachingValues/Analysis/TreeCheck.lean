import ReachingValues.Program.Basic
import ReachingValues.Tree.Walk

/-!
Whether a tree fits a function: it is rooted at the entry, its two directions agree, no block is in
it twice, and it holds exactly the blocks reachable from the entry. Whether the tree tells the truth
about dominance is not looked into. Of several faults the one met first in the order of the search
below is reported.
-/

namespace ReachingValues

namespace TreeCheck

/-- Checks the blocks listed under `node` one after another and strikes them off the blocks that
have not been found in the tree. -/
def strike (tree : TreeView) (blockCount : Nat) (node : Node) (missing : List Node) :
    List Node → Except Error (List Node)
  | [] => .ok missing
  | child :: rest =>
    if blockCount ≤ child then .error (.unknownBlock child)
    else if child = node ∨ tree.parent child ≠ some node then
      .error (.invalidTree (.linksDisagree child node (tree.parent child)))
    else if child ∈ missing then strike tree blockCount node (missing.erase child) rest
    else .error (.invalidTree (.listedTwice child))

/-- Every child that passes is one missing block less. -/
theorem strike_length {tree : TreeView} {blockCount : Nat} {node : Node}
    {missing left children : List Node}
    (passed : strike tree blockCount node missing children = .ok left) :
    left.length + children.length = missing.length := by
  induction children generalizing missing with
  | nil => simp_all [strike]
  | cons child rest ih =>
    unfold strike at passed
    split at passed
    · cases passed
    · split at passed
      · cases passed
      · split at passed
        · rename_i member
          have shorter := List.length_erase_of_mem member
          have positive := List.length_pos_of_mem member
          have tail := ih passed
          simp only [List.length_cons]
          omega
        · cases passed

/-- Searches the tree below the waiting nodes and returns the blocks that are not in it. -/
def search (tree : TreeView) (blockCount : Nat) (missing waiting : List Node) :
    Except Error (List Node) :=
  match waiting with
  | [] => .ok missing
  | node :: rest =>
    match _passed : strike tree blockCount node missing (tree.children node) with
    | .error error => .error error
    | .ok left => search tree blockCount left (Order.depthFirst.join (tree.children node) rest)
termination_by missing.length + waiting.length
decreasing_by
  have struck := strike_length _passed
  simp only [Order.join_length, List.length_cons]
  omega

/-- Compares the blocks missing from the tree with those that the entry reaches. -/
def compare (blockCount : Nat) (missing reachable : List Node) : Except Error Unit :=
  match reachable.find? (missing.contains ·) with
  | some block => .error (.invalidTree (.blockMissing block))
  | none =>
    match (List.range blockCount).find? fun b => !missing.contains b && !reachable.contains b with
    | some block => .error (.invalidTree (.blockUnreachable block))
    | none => .ok ()

end TreeCheck

/-- Checks that a tree can be used to analyse the function. -/
def Function.checkTree (f : Function) (tree : TreeView) : Except Error Unit := do
  if tree.root ≠ f.entry then throw (.rootMismatch f.entry tree.root)
  if (tree.parent tree.root).isSome then throw (.invalidTree (.rootHasParent tree.root))
  let blocks := f.flow.nodes.erase tree.root
  TreeCheck.compare f.blockCount (← TreeCheck.search tree f.blockCount blocks [tree.root])
    f.reachableBlocks

end ReachingValues
