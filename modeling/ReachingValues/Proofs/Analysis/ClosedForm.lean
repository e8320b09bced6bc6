import Mathlib.Data.List.Nodup
import Mathlib.Data.List.Pairwise
import ReachingValues.Proofs.Analysis.Contents
import ReachingValues.Proofs.Analysis.Failures

/-!
What flows down a tree, in closed form. A set is filled piece by piece, by a visit of the parent and
before the node itself is visited; so it is whole when it is copied. The tree may be any tree over
any handles that there is room for, with or without definitions for them, in whatever way it came
about. Without room for a handle there is no result.
-/

namespace ReachingValues

namespace TreeView

variable {t : TreeView}

/-- Whether all links together list nothing twice can be counted out. -/
theorem shaped_of_nodup (once : (t.root :: t.inner.flatMap t.children).Nodup) : t.Shaped := by
  obtain ⟨unlisted, lists⟩ := List.nodup_cons.mp once
  obtain ⟨each, apart⟩ := List.nodup_flatMap.mp lists
  refine ⟨fun p _ listed => ?_, fun p q c _ _ one other => ?_, fun p _ => ?_⟩
  · exact unlisted (List.mem_flatMap.mpr ⟨p, mem_inner_of_mem_children listed, listed⟩)
  · have symm : Std.Symm (Function.onFun List.Disjoint t.children) :=
      ⟨fun _ _ disjoint _ one other => disjoint other one⟩
    exact Classical.byContradiction fun differ =>
      apart.forall (mem_inner_of_mem_children one) (mem_inner_of_mem_children other) differ one other
  · by_cases member : p ∈ t.inner
    · exact each p member
    · rw [t.children_eq_nil p member]
      exact List.nodup_nil

end TreeView

namespace ReachTable

theorem numbered_over : numbered.Over (IndexSet.empty 4).capacity := by
  intro b own known
  simp only [numbered, Definitions.get?, Array.getElem?_ofFn] at known
  split at known
  · exact Option.some.inj known ▸ rfl
  · cases known

theorem numbered_defines {b : Node} {v : ValueId} : numbered.Defines b v ↔ b < 4 ∧ v = b := by
  simp only [Definitions.Defines, numbered, Definitions.get?, Array.getElem?_ofFn]
  split
  · rename_i inside
    simp [inside, IndexSet.contains_withIndex (s := .empty 4) inside]
  · rename_i outside
    simp [outside]

end ReachTable

namespace Definitions

variable {d : Definitions} {tree : TreeView} {seed : ValueSet}

/-- Along a tree the visits list every node once and after its parent, and a node holds the seed and
what the nodes strictly above it define. All other nodes have no set. -/
theorem propagate_closed_form (shaped : tree.Shaped) (uniform : d.Over seed.capacity)
    (bounded : ∀ b, tree.Leads tree.root b → b < d.room) (order : Order) :
    ∃ table, d.propagate tree seed order = .ok table ∧
      (∃ rest, table.blocks = tree.root :: rest) ∧
      table.blocks.Nodup ∧
      (∀ b, b ∈ table.blocks ↔ tree.Leads tree.root b) ∧
      (∀ p c, tree.Leads tree.root p → c ∈ tree.children p → [p, c].Sublist table.blocks) ∧
      (∀ b, tree.Leads tree.root b → ∃ s, table.get? b = some s ∧ s.capacity = seed.capacity ∧
        ∀ v, s.contains v ↔ seed.contains v ∨
          ∃ a, a ≠ b ∧ tree.Leads tree.root a ∧ tree.Leads a b ∧ d.Defines a v) ∧
      ∀ b, ¬ tree.Leads tree.root b → table.get? b = none := by
  obtain ⟨table, run, blocks, known, sets⟩ :=
    d.propagate_shaped shaped (uniform.admits bounded) order
  refine ⟨table, run, ?_, ?_, fun b => ?_, fun p c above listed => ?_, fun b led => ?_,
    fun b unled => ?_⟩
  · rw [blocks]
    exact TreeView.exists_walk_eq_cons
  · rw [blocks]
    exact TreeView.walk_nodup
  · rw [blocks, TreeView.mem_walk_iff]
  · rw [blocks]
    exact shaped.parent_before above listed
  · obtain ⟨s, found⟩ := Option.isSome_iff_exists.mp ((known b).mpr led)
    obtain ⟨capacity, members⟩ := sets b s found
    refine ⟨s, found, capacity, fun v => ?_⟩
    simp only [members v, shaped.properAncestor_iff_leads, and_assoc]
  · rwa [← known b, Option.not_isSome_iff_eq_none] at unled

/-- A tree with a node between two blocks that is no block itself. -/
def sparse : LinkTable := ⟨0, [(0, [1, 7]), (7, [3])], []⟩

/-- The last block receives what the root defines, past a node without definitions, but not what it
defines itself. -/
theorem propagate_closed_form_sparse :
    ∃ table s, ReachTable.numbered.propagate sparse.view (.empty 4) .depthFirst = .ok table ∧
      table.get? 3 = some s ∧ s.contains 0 = true ∧ ¬ s.contains 3 = true := by
  have shaped : sparse.view.Shaped := TreeView.shaped_of_nodup (by decide)
  have bounded : ∀ b, sparse.view.Leads sparse.view.root b → b < ReachTable.numbered.room :=
    TreeView.lt_of_links (by decide) (by decide)
  have listed : 7 ∈ sparse.view.children 0 ∧ 3 ∈ sparse.view.children 7 := by decide
  have below : sparse.view.Leads 0 3 := .down listed.1 (.down listed.2 .here)
  obtain ⟨table, run, _, _, _, _, sets, _⟩ :=
    propagate_closed_form shaped ReachTable.numbered_over bounded .depthFirst
  obtain ⟨s, found, _, members⟩ := sets 3 below
  have rootDefines : ReachTable.numbered.Defines 0 0 := ReachTable.numbered_defines.mpr (by decide)
  refine ⟨table, s, run, found, (members 0).mpr (Or.inr ⟨0, by decide, .here, below, rootDefines⟩),
    fun own => ?_⟩
  rcases (members 3).mp own with seeded | ⟨a, other, _, _, defines⟩
  · simp at seeded
  · exact other (ReachTable.numbered_defines.mp defines).2.symm

theorem seeded_remote (seed : ValueSet) : ReachTable.numbered.seeded Program.remote.view seed =
    .error (.noRoom UInt64.size NodeSets.maxLength) :=
  seeded_of_le (by decide)

theorem propagate_remote (seed : ValueSet) (order : Order) :
    ReachTable.numbered.propagate Program.remote.view seed order =
      .error (.noRoom UInt64.size NodeSets.maxLength) := by
  rw [propagate, seeded_remote, error_bind]

theorem propagate_remote_ne_ok (seed : ValueSet) (order : Order) (table : ReachTable) :
    ReachTable.numbered.propagate Program.remote.view seed order ≠ .ok table := by
  rw [propagate_remote]
  simp

/-- It is a tree, but there is no room for its node. -/
theorem no_closed_form_remote : Program.remote.view.Shaped ∧
    ReachTable.numbered.Over (IndexSet.empty 4).capacity ∧ ∀ order, ¬ ∃ table,
      ReachTable.numbered.propagate Program.remote.view (.empty 4) order = .ok table := by
  refine ⟨TreeView.shaped_of_nodup (by decide), ReachTable.numbered_over, ?_⟩
  rintro order ⟨table, run⟩
  exact propagate_remote_ne_ok _ order table run

end Definitions

end ReachingValues
