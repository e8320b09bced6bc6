import Mathlib.Data.List.Nodup
import Mathlib.Data.Set.Card
import ReachingValues.Proofs.Dominators.Children
import ReachingValues.Proofs.Graph.EdgeLists

/-!
The lists of children make up one tree. A reached node has one immediate dominator, so it stands in
one list, and only the entry stands in none; and as a node strictly dominates what is below it, no
way down comes back.
-/

namespace ReachingValues

variable {α : Type} {g : Graph α} {entry c n : Node}

namespace DominatorTree

variable {t : DominatorTree}

/-- The children of all nodes, list by list. -/
def allChildren (t : DominatorTree) : List Node := t.children.toList.flatten

theorem childrenOf_getElem {p : Nat} (inside : p < t.children.size) :
    t.childrenOf p = t.children[p] := by
  rw [childrenOf, Array.getElem?_eq_getElem inside, Option.getD_some]

theorem mem_allChildren : c ∈ t.allChildren ↔ ∃ p, c ∈ t.childrenOf p := by
  rw [allChildren, List.mem_flatten]
  constructor
  · rintro ⟨list, member, listed⟩
    obtain ⟨p, inside, rfl⟩ := Array.mem_iff_getElem.mp (Array.mem_toList_iff.mp member)
    exact ⟨p, childrenOf_getElem inside ▸ listed⟩
  · rintro ⟨p, listed⟩
    have inside : p < t.children.size := by
      rw [t.children_eq, size_childLists]
      exact (mem_childrenOf_iff.mp listed).1
    exact ⟨_, Array.mem_toList_iff.mpr (Array.getElem_mem inside),
      childrenOf_getElem inside ▸ listed⟩

/-- No node is a child twice: it names one node as its immediate dominator. -/
theorem allChildren_nodup : t.allChildren.Nodup := by
  rw [allChildren, List.nodup_flatten]
  refine ⟨fun list member => ?_, List.pairwise_iff_getElem.mpr fun p q atP atQ less => ?_⟩
  · obtain ⟨p, inside, rfl⟩ := Array.mem_iff_getElem.mp (Array.mem_toList_iff.mp member)
    exact childrenOf_getElem inside ▸ childrenOf_ascending.imp Nat.ne_of_lt
  · intro c one other
    rw [Array.getElem_toList, ← childrenOf_getElem (by simpa using atP)] at one
    rw [Array.getElem_toList, ← childrenOf_getElem (by simpa using atQ)] at other
    have same := (mem_childrenOf_iff.mp one).2.symm.trans (mem_childrenOf_iff.mp other).2
    exact Nat.ne_of_lt less (Option.some.inj same)

theorem reachable_nodup : t.reachable.Nodup := List.nodup_range.filter _

theorem length_reachable : t.reachable.length = t.reachableCount :=
  List.countP_eq_length_filter.symm

namespace Faithful

variable (faithful : t.Faithful g entry)

include faithful

theorem mem_allChildren_iff : n ∈ t.allChildren ↔ n ≠ entry ∧ g.Reaches entry n := by
  rw [mem_allChildren]
  constructor
  · rintro ⟨p, listed⟩
    have strict := (faithful.mem_children_iff.mp listed).strict
    exact ⟨strict.ne_entry, strict.2.1⟩
  · rintro ⟨other, reach⟩
    obtain ⟨d, _, immediate⟩ := faithful.exists_immediateDominator other reach
    exact ⟨d, faithful.mem_children_iff.mpr immediate⟩

theorem mem_reachable_iff : n ∈ t.reachable ↔ g.Reaches entry n := by
  rw [reachable, List.mem_filter, List.mem_range, faithful.isReachable_iff, and_iff_right_iff_imp,
    faithful.nodeCount_eq]
  exact fun reach => Graph.contains_iff.mp reach.contains.2

theorem reachable_perm (inside : g.contains entry) : t.reachable.Perm (entry :: t.allChildren) := by
  have top : entry ∉ t.allChildren := fun listed =>
    (faithful.mem_allChildren_iff.mp listed).1 rfl
  refine (List.perm_ext_iff_of_nodup reachable_nodup
    (List.nodup_cons.mpr ⟨top, allChildren_nodup⟩)).mpr fun n => ?_
  rw [faithful.mem_reachable_iff, List.mem_cons, faithful.mem_allChildren_iff]
  by_cases same : n = entry
  · simp [same, Graph.Reaches.refl inside]
  · simp [same]

theorem reachableCount_eq (inside : g.contains entry) :
    t.reachableCount = 1 + t.allChildren.length := by
  rw [← length_reachable, (faithful.reachable_perm inside).length_eq, List.length_cons,
    Nat.add_comm]

theorem reachableCount_eq_ncard : t.reachableCount = {n | g.Reaches entry n}.ncard := by
  have nodes : {n | g.Reaches entry n} = (t.reachable.toFinset : Set Node) := by
    rw [List.coe_toFinset]
    exact Set.ext fun n => faithful.mem_reachable_iff.symm
  rw [nodes, Set.ncard_coe_finset, List.toFinset_card_of_nodup reachable_nodup, length_reachable]

/-- What lies below a child of a node is strictly dominated by the node. -/
theorem not_leads_of_child (listed : c ∈ t.childrenOf n) : ¬ t.view.Leads c n := by
  intro leads
  have strict := (faithful.mem_children_iff.mp listed).strict
  have reach := faithful.reaches_of_leads strict.2.1 leads
  exact strict.1 (strict.2.antisymm ((faithful.leads_iff reach).mp leads))

end Faithful

end DominatorTree

namespace Graph

/-- The lists of children form a tree of the reached nodes, with the entry at its root. -/
theorem children_form_tree (inside : g.contains entry) :
    ∃ t, g.dominatorTree entry = .ok t ∧
      (∀ n, n ≠ entry → g.Reaches entry n → t.allChildren.count n = 1 ∧
        ∃ d, g.ImmediatelyDominates entry d n ∧ t.immediateDominator n = some d ∧
          n ∈ t.childrenOf d) ∧
      (∀ n, n = entry ∨ ¬ g.Reaches entry n → ∀ p, n ∉ t.childrenOf p) ∧
      (∀ p, (t.childrenOf p).Pairwise (· < ·)) ∧
      (∀ n, t.view.Leads entry n ↔ g.Reaches entry n) ∧
      (∀ p, ∀ c ∈ t.childrenOf p, ¬ t.view.Leads c p) ∧
      t.reachableCount = {n | g.Reaches entry n}.ncard ∧
      t.reachableCount = 1 + t.allChildren.length := by
  obtain ⟨t, run, faithful⟩ := g.dominatorTree_faithful entry
  refine ⟨t, run, fun n other reach => ⟨?_, ?_⟩, fun n outside p listed => ?_,
    fun p => DominatorTree.childrenOf_ascending, fun n => ?_,
    fun p c => faithful.not_leads_of_child, faithful.reachableCount_eq_ncard,
    faithful.reachableCount_eq inside⟩
  · have member := faithful.mem_allChildren_iff.mpr ⟨other, reach⟩
    rw [DominatorTree.allChildren_nodup.count, if_pos member]
  · obtain ⟨d, link, immediate⟩ := faithful.exists_immediateDominator other reach
    exact ⟨d, immediate, link, faithful.mem_children_iff.mpr immediate⟩
  · have strict := (faithful.mem_children_iff.mp listed).strict
    exact outside.elim (absurd · strict.ne_entry) (absurd strict.2.1)
  · have top : t.view.root = entry := faithful.entry_eq
    rw [← faithful.leads_root_iff inside, top]

/-- A circle that can be entered at two places, and a node that nothing leads to. -/
def circle : Graph String :=
  ofCalls [.node "a", .node "b", .node "c", .node "d", .edge 0 1, .edge 0 2, .edge 1 2, .edge 2 1,
    .edge 3 1]

theorem not_reaches_circle : ¬ circle.Reaches 0 3 := fun reach => by
  have closed : ∀ m < 3, ∀ n ∈ circle.successors m, n < 3 := by decide
  have below : ∀ n, circle.Reaches 0 n → n < 3 := fun n reach =>
    reach.induct (fun m n low => closed m low n) (by decide)
  exact Nat.lt_irrefl 3 (below 3 reach)

theorem children_form_tree_circle : circle.contains 0 ∧
    ∃ t, circle.dominatorTree 0 = .ok t ∧ t.allChildren.count 2 = 1 ∧ 2 ∈ t.childrenOf 0 ∧
      (∀ p, 3 ∉ t.childrenOf p) ∧ t.reachableCount = 1 + t.allChildren.length := by
  have inside : circle.contains 0 := by decide
  have path : circle.Path 0 [0, 2] 2 := .step (by decide) (.here (by decide))
  obtain ⟨t, run, reached, unlisted, _, _, _, _, count⟩ := children_form_tree inside
  obtain ⟨once, d, immediate, _, listed⟩ := reached 2 (by decide) path.reaches
  have passed : d = 0 ∨ d = 2 := by simpa using immediate.strict.2.2 _ path
  obtain rfl := passed.resolve_right immediate.strict.1
  exact ⟨inside, t, run, once, listed, unlisted 3 (Or.inr not_reaches_circle), count⟩

end Graph

end ReachingValues
