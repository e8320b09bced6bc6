import ReachingValues.Proofs.Analysis.ClosedForm
import ReachingValues.Proofs.Tree.Orders

/-!
The order of the visits that a result records, along a tree. The tree may again be any tree over any
handles that there is room for, and neither the seed nor the definitions have a part in the order.
-/

namespace ReachingValues

namespace Definitions

variable {d : Definitions} {tree : TreeView} {seed : ValueSet}

/-- Depth first the result lists the nodes in pre-order, the children of each from the last to the
first, so that what stands below a node follows it without a gap. Breadth first it lists them level
by level, the children of each from the first to the last, so that it never goes back up. -/
theorem propagate_records_order (shaped : tree.Shaped) (uniform : d.Over seed.capacity)
    (bounded : ∀ b, tree.Leads tree.root b → b < d.room) :
    (∃ table, d.propagate tree seed .depthFirst = .ok table ∧
      (∀ visits, Preorder (fun n => (tree.children n).reverse) [tree.root] visits ↔
        visits = table.blocks) ∧
      ∀ n, tree.Leads tree.root n → ∃ front segment back,
        table.blocks = front ++ n :: segment ++ back ∧ ∀ m, m ∈ n :: segment ↔ tree.Leads n m) ∧
    ∃ table, d.propagate tree seed .breadthFirst = .ok table ∧
      (∃ height, table.blocks = (List.range height).flatMap tree.level ∧
        ∀ k, tree.level k = [] ↔ height ≤ k) ∧
      table.blocks.Pairwise fun a b => ∀ i j, a ∈ tree.level i → b ∈ tree.level j → i ≤ j := by
  have admits := uniform.admits bounded
  obtain ⟨deep, ran, downwards, _⟩ := d.propagate_shaped shaped admits .depthFirst
  obtain ⟨broad, again, across, _⟩ := d.propagate_shaped shaped admits .breadthFirst
  refine ⟨⟨deep, ran, fun visits => ⟨fun visited => ?_, fun same => ?_⟩, fun n led => ?_⟩,
    broad, again, ?_⟩
  · rw [downwards]
    exact visited.unique shaped.preorder_walk
  · rw [same, downwards]
    exact shaped.preorder_walk
  · rw [downwards]
    exact shaped.exists_segment led
  · obtain ⟨height, walked, ends⟩ := shaped.exists_height
    rw [across, walked]
    exact ⟨⟨height, rfl, ends⟩, shaped.upper_pairwise height⟩

/-- Two blocks stand below the root, and another one below the first of them. -/
theorem propagate_records_order_lopsided : ∃ deep broad,
    ReachTable.numbered.propagate Program.lopsided.view (.empty 4) .depthFirst = .ok deep ∧
    ReachTable.numbered.propagate Program.lopsided.view (.empty 4) .breadthFirst = .ok broad ∧
    deep.blocks = [0, 2, 1, 3] ∧ broad.blocks = [0, 1, 2, 3] := by
  have shaped : Program.lopsided.view.Shaped := TreeView.shaped_of_nodup (by decide)
  have bounded : ∀ b, Program.lopsided.view.Leads Program.lopsided.view.root b →
      b < ReachTable.numbered.room := TreeView.lt_of_links (by decide) (by decide)
  obtain ⟨⟨deep, ran, orders, _⟩, broad, again, ⟨height, levels, ends⟩, _⟩ :=
    propagate_records_order shaped ReachTable.numbered_over bounded
  have visited : Preorder (fun n => (Program.lopsided.view.children n).reverse) [0] [0, 2, 1, 3] :=
    .visit_joined (.visit_joined (.visit_joined (.visit_joined .done)))
  have least : height = 3 := by
    have above := mt (ends 2).mpr (by decide)
    have below := (ends 3).mp (by decide)
    omega
  refine ⟨deep, broad, ran, again, ((orders _).mp visited).symm, ?_⟩
  rw [levels, least]
  rfl

/-- Neither order is recorded for a tree whose only node there is no room for. -/
theorem no_order_remote : Program.remote.view.Shaped ∧
    ReachTable.numbered.Over (IndexSet.empty 4).capacity ∧
    (¬ ∃ deep,
      ReachTable.numbered.propagate Program.remote.view (.empty 4) .depthFirst = .ok deep ∧
      deep.blocks = [Program.remote.view.root]) ∧
    ¬ ∃ broad,
      ReachTable.numbered.propagate Program.remote.view (.empty 4) .breadthFirst = .ok broad ∧
      broad.blocks = [Program.remote.view.root] := by
  refine ⟨TreeView.shaped_of_nodup (by decide), ReachTable.numbered_over, ?_, ?_⟩
  · rintro ⟨deep, run, _⟩
    exact propagate_remote_ne_ok _ _ deep run
  · rintro ⟨broad, run, _⟩
    exact propagate_remote_ne_ok _ _ broad run

end Definitions

end ReachingValues
