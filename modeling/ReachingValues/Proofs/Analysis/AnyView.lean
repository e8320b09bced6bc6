import ReachingValues.Proofs.Analysis.ClosedForm
import ReachingValues.Proofs.Analysis.Loop

/-!
Propagation along links of any kind: circles, nodes listed by several others or by one of them more
than once, links back to the root. The loop takes one turn for the root and one for each link of a
visited node, so it comes to an end. A node may be visited before all that list it are, and then
hands down less than it holds in the end; but what it holds has come along links, and it holds all
that was handed to it. All that the links must not do is lead to a handle that there is no room for.
-/

namespace ReachingValues

namespace Definitions

variable {d : Definitions} {tree : TreeView} {seed : ValueSet}

/-- Whatever the links are, if there is room for the handles that they lead to, the loop ends, every
node that they lead to is visited once, and its set lies between what is sure to reach it and what
can. -/
theorem propagate_any_view (tree : TreeView) (uniform : d.Over seed.capacity)
    (bounded : ∀ b, tree.Leads tree.root b → b < d.room) (order : Order) :
    ∃ table, d.propagate tree seed order = .ok table ∧
      d.propagateWithin tree seed order
        (1 + (table.blocks.flatMap tree.children).length) = .ok (some table) ∧
      table.blocks.Nodup ∧
      (∀ b, b ∈ table.blocks ↔ tree.Leads tree.root b) ∧
      ∀ b, tree.Leads tree.root b → ∃ s, table.get? b = some s ∧ s.capacity = seed.capacity ∧
        (∀ v, seed.contains v → s.contains v) ∧
        (∀ v, s.contains v → seed.contains v ∨
          ∃ a, tree.Leads tree.root a ∧ (∃ c ∈ tree.children a, tree.Leads c b) ∧
            d.Defines a v) ∧
        ∀ p, tree.Leads tree.root p → b ∈ tree.children p →
          ∀ v, d.Defines p v → s.contains v := by
  obtain ⟨table, run, yields⟩ := propagate_yields (uniform.admits bounded) order
  refine ⟨table, run, ?_, ?_, fun b => ?_, fun b led => ?_⟩
  · rw [yields.blocks, propagateWithin_eq (Nat.le_refl _), run]
    rfl
  · rw [yields.blocks]
    exact TreeView.walk_nodup
  · rw [yields.blocks, TreeView.mem_walk_iff]
  · obtain ⟨s, found, size, contains⟩ := yields.exists_set led
    refine ⟨s, found, size, fun v seeded => ?_, fun v member => ?_, fun p above listed v defined => ?_⟩
    · exact (contains v).mpr (Or.inl seeded)
    · rcases (contains v).mp member with seeded | ⟨p, above, listed, handed⟩
      · exact Or.inl seeded
      · obtain ⟨a, ⟨toA, onward⟩, defined⟩ := handed.exists_properAncestor above listed
        exact Or.inr ⟨a, toA, onward, defined⟩
    · exact (contains v).mpr (Or.inr ⟨p, above, listed, p, .refl, defined⟩)

/-- Three blocks that list one another, themselves and the root, some of them twice. -/
def knotted : LinkTable := ⟨0, [(0, [1, 2, 2]), (1, [0, 2]), (2, [1, 2])], []⟩

/-- A block below the root hands its definition back to it, but no link leads to the last block. -/
theorem propagate_any_view_knotted :
    ∃ table s, ReachTable.numbered.propagate knotted.view (.empty 4) .breadthFirst = .ok table ∧
      table.get? 0 = some s ∧ s.contains 1 = true ∧ 3 ∉ table.blocks := by
  have bounded : ∀ b, knotted.view.Leads knotted.view.root b → b < ReachTable.numbered.room :=
    TreeView.lt_of_links (by decide) (by decide)
  obtain ⟨table, run, _, _, listed, sets⟩ :=
    propagate_any_view knotted.view ReachTable.numbered_over bounded .breadthFirst
  obtain ⟨s, found, _, _, _, handed⟩ := sets 0 .here
  have toOne : 1 ∈ knotted.view.children 0 := by decide
  refine ⟨table, s, run, found, handed 1 (.down toOne .here) (by decide) 1 ?_, fun passed => ?_⟩
  · exact ReachTable.numbered_defines.mpr (by decide)
  · have inside : ∀ n, knotted.view.Leads knotted.view.root n → n < 3 :=
      TreeView.lt_of_links (by decide) (by decide)
    exact Nat.lt_irrefl 3 (inside 3 ((listed 3).mp passed))

/-- The loop does not get as far as its first turn, if there is no room for the root. -/
theorem no_entry_remote : ReachTable.numbered.Over (IndexSet.empty 4).capacity ∧
    ∀ order turns, ReachTable.numbered.propagateWithin Program.remote.view (.empty 4) order turns =
        .error (.noRoom UInt64.size NodeSets.maxLength) ∧
      ¬ ∃ table, ReachTable.numbered.propagate Program.remote.view (.empty 4) order = .ok table ∧
        Program.remote.view.root ∈ table.blocks := by
  refine ⟨ReachTable.numbered_over, fun order turns => ⟨?_, ?_⟩⟩
  · rw [propagateWithin, seeded_remote, error_bind]
  · rintro ⟨table, run, _⟩
    exact propagate_remote_ne_ok _ order table run

end Definitions

end ReachingValues
