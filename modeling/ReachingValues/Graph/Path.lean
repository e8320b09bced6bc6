import ReachingValues.Graph.Basic

/-!
Paths of a graph, and what it means for one node to dominate another. Nothing here is computed:
these are the notions by which enumerations and dominator trees are judged.
-/

namespace ReachingValues

namespace Graph

variable {α : Type}

/-- A path from the first node to the last, with the list of all nodes it visits, both ends
included. -/
inductive Path (g : Graph α) : Node → List Node → Node → Prop where
  | here {n : Node} : g.contains n → Path g n [n] n
  | step {n m t : Node} {visited : List Node} :
      m ∈ g.successors n → Path g m visited t → Path g n (n :: visited) t

/-- Some path leads from `s` to `t`. -/
def Reaches (g : Graph α) (s t : Node) : Prop := ∃ visited, g.Path s visited t

/-- Node `a` lies on every path from the entry to `b`, and there is one. -/
def Dominates (g : Graph α) (entry a b : Node) : Prop :=
  g.Reaches entry b ∧ ∀ visited, g.Path entry visited b → a ∈ visited

/-- Dominance of a node other than itself. -/
def StrictlyDominates (g : Graph α) (entry a b : Node) : Prop := a ≠ b ∧ g.Dominates entry a b

end Graph

end ReachingValues
