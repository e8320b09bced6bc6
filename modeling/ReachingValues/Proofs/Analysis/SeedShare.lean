import ReachingValues.Proofs.Analysis.VisitOrder

/-!
What the seed contributes. Which nodes are visited when, and what they hand down of their own
definitions, is the same with every seed; the seed comes to the root and is handed on by every visit,
so each set gets all of it. A run without a seed therefore knows everything else, also along links
that run in circles and for sets that still grow after they have been copied.
-/

namespace ReachingValues

namespace Definitions

variable {d : Definitions} {tree : TreeView} {seed values : ValueSet} {order : Order}
  {table bare : ReachTable} {b : Node}

theorem Yields.isReached_eq {start : ValueSet} (yields : d.Yields tree seed order table)
    (without : d.Yields tree start order bare) (b : Node) : table.isReached b = bare.isReached b :=
  Bool.eq_iff_iff.mpr ((yields.isSome_iff b).trans (without.isSome_iff b).symm)

/-- What is handed down is told by the visits, so two runs differ by their seeds alone. -/
theorem Yields.get?_eq_withAll (yields : d.Yields tree seed order table)
    (without : d.Yields tree (.empty seed.capacity) order bare) (known : bare.get? b = some values) :
    ∃ same : values.capacity = seed.capacity, table.get? b = some (seed.withAll values same) := by
  have same : values.capacity = seed.capacity := without.capacity b values known
  have led : tree.Leads tree.root b := (without.isSome_iff b).mp (known ▸ rfl)
  obtain ⟨s, found, capacity, contains⟩ := yields.exists_set led
  have union : s = seed.withAll values same := by
    refine IndexSet.eq_iff.mpr ⟨capacity, fun v => ?_⟩
    have seeded : seed.contains v ∨ values.contains v ↔ s.contains v := by
      rw [contains v, without.contains_iff b values v known, IndexSet.contains_empty,
        or_iff_right Bool.false_ne_true]
    rw [IndexSet.contains_withAll, Bool.eq_iff_iff, Bool.or_eq_true, seeded]
  exact ⟨same, union ▸ found⟩

/-- Along any view over handles that there is room for, a run with a seed and the run without one
visit the same nodes in the same order, and each set of the first is the seed together with the same
node's set of the second. -/
theorem propagate_shares_seed (tree : TreeView) (uniform : d.Over seed.capacity)
    (bounded : ∀ b, tree.Leads tree.root b → b < d.room) (order : Order) :
    ∃ table bare, d.propagate tree seed order = .ok table ∧
      d.propagate tree (.empty seed.capacity) order = .ok bare ∧
      table.blocks = bare.blocks ∧
      (∀ b, table.isReached b = bare.isReached b) ∧
      ∀ b, table.isReached b → ∃ s values growth, table.get? b = some s ∧
        bare.get? b = some values ∧ seed.union values = .ok growth ∧ s = growth.set := by
  obtain ⟨table, run, yields⟩ := propagate_yields (uniform.admits bounded) order
  have blank : d.Over (IndexSet.empty seed.capacity).capacity := uniform
  obtain ⟨bare, alone, without⟩ := propagate_yields (blank.admits bounded) order
  refine ⟨table, bare, run, alone, ?_, yields.isReached_eq without, fun b reached => ?_⟩
  · rw [yields.blocks, without.blocks]
  · rw [yields.isReached_eq without] at reached
    obtain ⟨values, known⟩ := Option.isSome_iff_exists.mp reached
    obtain ⟨same, found⟩ := yields.get?_eq_withAll without known
    exact ⟨_, values, _, found, known, IndexSet.union_of_eq same, rfl⟩

/-- A seed of the value that the last block defines. -/
def lastSeeded : ValueSet := (IndexSet.empty 4).withIndex 3 (by decide)

/-- Depth first, the last block is visited before the first one, and what that one defines never comes
to it. The seed does. -/
theorem propagate_shares_seed_forked : ReachTable.numbered.Over lastSeeded.capacity ∧
    ∃ table bare s values growth,
      ReachTable.numbered.propagate forked.view lastSeeded .depthFirst = .ok table ∧
      ReachTable.numbered.propagate forked.view (.empty 4) .depthFirst = .ok bare ∧
      table.blocks = bare.blocks ∧ bare.blocks = [0, 2, 3, 1] ∧
      table.get? 3 = some s ∧ bare.get? 3 = some values ∧ values.contains 1 = false ∧
      lastSeeded.union values = .ok growth ∧ s = growth.set := by
  have uniform : ReachTable.numbered.Over lastSeeded.capacity := ReachTable.numbered_over
  have bounded : ∀ b, forked.view.Leads forked.view.root b → b < ReachTable.numbered.room :=
    TreeView.lt_of_links (by decide) (by decide)
  obtain ⟨table, bare, run, alone, blocks, reached, sets⟩ :=
    propagate_shares_seed forked.view uniform bounded .depthFirst
  obtain ⟨r, again, seen⟩ := exists_of_toOption_map propagate_forked
  obtain rfl : bare = r := Except.ok.inj (alone.symm.trans again)
  obtain ⟨visits, missed⟩ := Prod.mk.inj seen
  have found : bare.isReached 3 :=
    ((ReachTable.regular_of_propagate alone).isSome_iff 3).mpr (by rw [visits]; decide)
  obtain ⟨s, values, growth, atTable, atBare, union, same⟩ := sets 3 ((reached 3).trans found)
  rw [ReachTable.contains, atBare] at missed
  exact ⟨uniform, table, bare, s, values, growth, run, alone, blocks, visits, atTable, atBare,
    missed, union, same⟩

/-- With a seed or without one, no order gives a result if there is no room for the root. -/
theorem no_share_remote : ReachTable.numbered.Over lastSeeded.capacity ∧ ∀ order,
    ReachTable.numbered.propagate Program.remote.view lastSeeded order =
      .error (.noRoom UInt64.size NodeSets.maxLength) ∧
    ReachTable.numbered.propagate Program.remote.view (.empty lastSeeded.capacity) order =
      .error (.noRoom UInt64.size NodeSets.maxLength) :=
  ⟨ReachTable.numbered_over, fun order =>
    ⟨propagate_remote lastSeeded order, propagate_remote (.empty lastSeeded.capacity) order⟩⟩

end Definitions

end ReachingValues
