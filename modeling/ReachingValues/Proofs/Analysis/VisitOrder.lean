import ReachingValues.Proofs.Analysis.ClosedForm

/-!
What the order of the visits does to the sets. A value travels down a link when the node above is
visited, and travels on only if the node below is visited later; so the list of visits decides the
sets, and it decides nothing else about them.

If all nodes that list others can be entered from one node only, both orders send the same values
along the same links. This is so in a tree, and still if leaves are shared or links lead back up. If
such a node can be entered from two, an order may visit it between them. What the second one hands
to it then stays there, while the other order sends it on, and the two results differ.
-/

namespace ReachingValues

variable {d : Definitions} {tree t : TreeView} {seed : ValueSet} {order other : Order}
  {a c n p : Node} {v : ValueId}

namespace TreeView

theorem walk_perm : (t.walk order).Perm (t.walk other) :=
  (List.perm_ext_iff_of_nodup walk_nodup walk_nodup).mpr fun _ =>
    mem_walk_iff.trans mem_walk_iff.symm

/-- A node that lists others is listed by one node at most that can be found without it. -/
def SingleEntry (t : TreeView) : Prop :=
  ∀ c p q, t.children c ≠ [] → t.LeadsAround c p → t.LeadsAround c q →
    c ∈ t.children p → c ∈ t.children q → p = q

/-- Whether it is listed by one node at all can be counted out. -/
theorem singleEntry_of_inner (sole : ∀ p ∈ t.inner, ∀ q ∈ t.inner, ∀ c ∈ t.children p,
    c ∈ t.children q → t.children c ≠ [] → p = q) : t.SingleEntry :=
  fun c p q inner _ _ one other => sole p (mem_inner_of_mem_children one) q
    (mem_inner_of_mem_children other) c one other inner

/-- In a tree it is its parent. -/
theorem Shaped.singleEntry (shaped : t.Shaped) : t.SingleEntry :=
  fun c p q _ one other => shaped.lister_unique p q c one.leads other.leads

namespace SingleEntry

variable (single : t.SingleEntry)

include single

theorem forward_of_forward (inner : t.children c ≠ []) (forward : t.Forward (t.walk order) p c) :
    t.Forward (t.walk other) p c := by
  obtain ⟨listed, before⟩ := forward
  have around := leadsAround_of_before before
  obtain ⟨q, also, first⟩ := exists_before (leads_of_before before).2 around.ne_root other
  exact ⟨listed, single c q p inner (leadsAround_of_before first) around also listed ▸ first⟩

theorem onward_of_onward (onward : Relation.ReflTransGen (t.Forward (t.walk order)) a n)
    (inner : t.children n ≠ []) : Relation.ReflTransGen (t.Forward (t.walk other)) a n := by
  induction onward with
  | refl => exact .refl
  | tail _ last ih =>
    exact (ih (List.ne_nil_of_mem last.1)).tail (single.forward_of_forward inner last)

end SingleEntry

end TreeView

namespace Definitions

theorem handsDown_of_handsDown (single : tree.SingleEntry) (listed : n ∈ tree.children p)
    (handed : d.HandsDown tree (tree.walk order) p v) :
    d.HandsDown tree (tree.walk other) p v := by
  obtain ⟨a, onward, defined⟩ := handed
  exact ⟨a, single.onward_of_onward onward (List.ne_nil_of_mem listed), defined⟩

namespace Yields

variable {r s : ReachTable}

theorem get?_eq (yields : d.Yields tree seed order r) (again : d.Yields tree seed other s)
    (single : tree.SingleEntry) (n : Node) : r.get? n = s.get? n := by
  by_cases led : tree.Leads tree.root n
  · obtain ⟨values, found, size, contains⟩ := yields.exists_set led
    obtain ⟨values', refound, size', contains'⟩ := again.exists_set led
    have same : values = values' := by
      refine IndexSet.eq_iff.mpr ⟨size.trans size'.symm, fun v => ?_⟩
      rw [Bool.eq_iff_iff, contains, contains']
      refine or_congr_right (exists_congr fun p => and_congr_right fun _ =>
        and_congr_right fun listed => ?_)
      exact ⟨handsDown_of_handsDown single listed, handsDown_of_handsDown single listed⟩
    rw [found, refound, same]
  · rw [Option.not_isSome_iff_eq_none.mp (mt (yields.isSome_iff n).mp led),
      Option.not_isSome_iff_eq_none.mp (mt (again.isSome_iff n).mp led)]

/-- The same with the list of visits that the result itself keeps. -/
theorem exists_set_of_mem (yields : d.Yields tree seed order r) {b : Node} (visited : b ∈ r.blocks) :
    ∃ values, r.get? b = some values ∧ values.capacity = seed.capacity ∧
      ∀ v, values.contains v ↔ seed.contains v ∨
        ∃ p ∈ r.blocks, b ∈ tree.children p ∧ d.HandsDown tree r.blocks p v := by
  rw [yields.blocks, TreeView.mem_walk_iff] at visited
  rw [yields.blocks]
  simp only [TreeView.mem_walk_iff]
  exact yields.exists_set visited

end Yields

/-- Along any view over handles that there is room for, the two orders visit the same nodes, and
each set consists of the seed and of what the nodes that list its node hand down, which depends on
the visits. They find the same sets if no node with children has two entries, so along every tree. -/
theorem sameContent_of_orders (tree : TreeView) (uniform : d.Over seed.capacity)
    (bounded : ∀ b, tree.Leads tree.root b → b < d.room) :
    ∃ r s, d.propagate tree seed .depthFirst = .ok r ∧
      d.propagate tree seed .breadthFirst = .ok s ∧ r.blocks.Perm s.blocks ∧
      (∀ t ∈ [r, s], ∀ b ∈ t.blocks, ∃ values, t.get? b = some values ∧
        values.capacity = seed.capacity ∧ ∀ v, values.contains v ↔ seed.contains v ∨
          ∃ p ∈ t.blocks, b ∈ tree.children p ∧ d.HandsDown tree t.blocks p v) ∧
      (tree.SingleEntry → r.sameContent s) ∧ (tree.Shaped → r.sameContent s) := by
  obtain ⟨r, deep, yields⟩ := propagate_yields (uniform.admits bounded) .depthFirst
  obtain ⟨s, broad, again⟩ := propagate_yields (uniform.admits bounded) .breadthFirst
  have same : tree.SingleEntry → r.sameContent s := fun single =>
    ((ReachTable.regular_of_propagate deep).sameContent_iff
      (ReachTable.regular_of_propagate broad)).mpr (yields.get?_eq again single)
  refine ⟨r, s, deep, broad, ?_, ?_, same, fun shaped => same shaped.singleEntry⟩
  · rw [yields.blocks, again.blocks]
    exact TreeView.walk_perm
  · exact List.forall_mem_cons.mpr ⟨fun b => yields.exists_set_of_mem,
      List.forall_mem_singleton.mpr fun b => again.exists_set_of_mem⟩

/-- Two blocks share a leaf, and one of them links back to the root. -/
def looped : LinkTable := ⟨0, [(0, [1, 2]), (1, [3]), (2, [0, 3])], []⟩

theorem sameContent_of_orders_looped :
    ∃ r s, ReachTable.numbered.propagate looped.view (.empty 4) .depthFirst = .ok r ∧
      ReachTable.numbered.propagate looped.view (.empty 4) .breadthFirst = .ok s ∧
      r.sameContent s := by
  have bounded : ∀ b, looped.view.Leads looped.view.root b → b < ReachTable.numbered.room :=
    TreeView.lt_of_links (by decide) (by decide)
  obtain ⟨r, s, deep, broad, _, _, same, _⟩ :=
    sameContent_of_orders looped.view ReachTable.numbered_over bounded
  exact ⟨r, s, deep, broad, same (TreeView.singleEntry_of_inner (by decide))⟩

/-- The second block is listed by the root and by the first block, and lists a third one. -/
def forked : LinkTable := ⟨0, [(0, [1, 2]), (1, [2]), (2, [3])], []⟩

theorem propagate_forked :
    (ReachTable.numbered.propagate forked.view (.empty 4) .depthFirst).toOption.map
      (fun r => (r.blocks, r.contains 3 1)) = some ([0, 2, 3, 1], false) := by decide +kernel

/-- Depth first, the second block is visited before the first and has sent on nothing of what the
first one hands to it afterwards. -/
theorem content_differs_forked :
    ∃ r s, ReachTable.numbered.propagate forked.view (.empty 4) .depthFirst = .ok r ∧
      ReachTable.numbered.propagate forked.view (.empty 4) .breadthFirst = .ok s ∧
      r.blocks = [0, 2, 3, 1] ∧ s.blocks = [0, 1, 2, 3] ∧
      r.contains 3 1 = false ∧ s.contains 3 1 = true ∧ r.sameContent s = false := by
  have broadRun : (ReachTable.numbered.propagate forked.view (.empty 4) .breadthFirst).toOption.map
      (fun s => (s.blocks, s.contains 3 1)) = some ([0, 1, 2, 3], true) := by decide +kernel
  obtain ⟨r, deep, atDeep⟩ := exists_of_toOption_map propagate_forked
  obtain ⟨s, broad, atBroad⟩ := exists_of_toOption_map broadRun
  obtain ⟨late, missed⟩ := Prod.mk.inj atDeep
  obtain ⟨early, received⟩ := Prod.mk.inj atBroad
  refine ⟨r, s, deep, broad, late, early, missed, received, Bool.eq_false_iff.mpr fun same => ?_⟩
  have maps := ((ReachTable.regular_of_propagate deep).sameContent_iff
    (ReachTable.regular_of_propagate broad)).mp same
  rw [ReachTable.contains, maps 3] at missed
  exact Bool.false_ne_true (missed.symm.trans received)

end Definitions

end ReachingValues
