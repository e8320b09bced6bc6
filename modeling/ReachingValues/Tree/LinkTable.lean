import ReachingValues.Tree.View

/-!
Tree views written down link by link, the way to have one that is no tree.
-/

namespace ReachingValues

/-- The links of a view. A node that is not mentioned has no children or no parent, and of two
entries for one node the later one counts. -/
structure LinkTable where
  root : Node
  children : List (Node × List Node)
  parents : List (Node × Node)

namespace LinkTable

def childrenOf (t : LinkTable) (n : Node) : List Node := (t.children.reverse.lookup n).getD []

def parentOf (t : LinkTable) (n : Node) : Option Node := t.parents.reverse.lookup n

def view (t : LinkTable) : TreeView where
  root := t.root
  children := t.childrenOf
  parent := t.parentOf
  inner := t.children.map (·.1)
  children_eq_nil n outside := by
    have absent : t.children.reverse.lookup n = none := by
      rw [List.lookup_eq_none_iff]
      intro entry member
      have other : entry.1 ∈ t.children.map (·.1) :=
        List.mem_map_of_mem (List.mem_reverse.mp member)
      simp only [bne_iff_ne, ne_eq]
      rintro rfl
      exact outside other
    simp [childrenOf, absent]

end LinkTable

end ReachingValues
