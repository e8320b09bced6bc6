import ReachingValues.Handle

/-!
What can be wrong with a tree that is built by hand or handed to the analysis.
-/

namespace ReachingValues

inductive TreeDefect where
  /-- A child was to be added below a node that is not in the tree. -/
  | parentMissing (parent child : Node)
  /-- A node was to be added that is in the tree already. -/
  | childPresent (child : Node)
  | rootHasParent (root : Node)
  /-- The node is listed below one node and names another one, itself or none as its parent. -/
  | linksDisagree (child listedUnder : Node) (parent : Option Node)
  /-- The node is listed twice, or it is the root and listed somewhere. -/
  | listedTwice (child : Node)
  /-- The block is reachable from the entry and not in the tree. -/
  | blockMissing (block : Node)
  /-- The block is in the tree and not reachable from the entry. -/
  | blockUnreachable (block : Node)
  deriving DecidableEq

/-- A parent as messages name it. -/
def TreeDefect.parentText : Option Node → String
  | none => "None"
  | some n => "Some(" ++ Node.taggedText n ++ ")"

def TreeDefect.message : TreeDefect → String
  | .parentMissing parent child =>
    "parent " ++ Node.text parent ++ " of " ++ Node.text child ++ " is not part of the tree"
  | .childPresent child => Node.text child ++ " is already part of the tree"
  | .rootHasParent root => "root " ++ Node.text root ++ " has a parent"
  | .linksDisagree child listedUnder parent =>
    Node.text child ++ " is listed under " ++ Node.text listedUnder ++ " but its parent is " ++
      parentText parent
  | .listedTwice child => Node.text child ++ " appears more than once"
  | .blockMissing block =>
    Node.text block ++ " is reachable from the entry but missing from the tree"
  | .blockUnreachable block =>
    Node.text block ++ " is in the tree but unreachable from the entry"

end ReachingValues
