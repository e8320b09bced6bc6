import ReachingValues.Proofs.Analysis.Run
import ReachingValues.Tree.LinkTable

/-!
The analysis along a tree that was handed in. The check reads the links of the tree in both
directions while the walk reads only the lists of children, but what passes the check is a tree: no
walk comes to a block twice, and the parent that a block names is the one that handed it its values.
Nothing in this needs the tree to tell the truth about dominance.
-/

namespace ReachingValues

namespace Function.SpannedBy

variable {f : Function} {tree : TreeView} {above b : Node} (spanned : f.SpannedBy tree)

include spanned

/-- Below the root there are blocks only, and the root is the entry. -/
theorem lt_blockCount (nonempty : 0 < f.blockCount) (leads : tree.Leads tree.root b) :
    b < f.blockCount := by
  rcases leads.last with rfl | ⟨p, toLister, listed⟩
  · rw [spanned.root_eq]
    exact nonempty
  · exact (spanned.agrees.listed p b toLister listed).1

theorem leads_iff_reaches (nonempty : 0 < f.blockCount) :
    tree.Leads tree.root b ↔ f.flow.Reaches f.entry b := by
  rw [← Graph.mem_depthFirst_iff]
  constructor
  · intro leads
    exact (spanned.leads_iff b (spanned.lt_blockCount nonempty leads)).mp leads
  · intro member
    have inside := Graph.contains_iff.mp (Graph.mem_depthFirst_iff.mp member).contains.2
    exact (spanned.leads_iff b inside).mpr member

/-- The link upwards from a block leads to the node that lists it. -/
theorem exists_parent (leads : tree.Leads tree.root b) (other : b ≠ f.entry) :
    ∃ above, tree.parent b = some above ∧ tree.Leads tree.root above ∧ b ∈ tree.children above := by
  rcases leads.last with same | ⟨above, toLister, listed⟩
  · exact absurd (same.symm.trans spanned.root_eq) other
  · exact ⟨above, (spanned.agrees.listed above b toLister listed).2.2, toLister, listed⟩

end Function.SpannedBy

/-- The entry holds the seed, and every other reached block what its parent in the tree holds together
with what the parent defines. -/
structure ReachTable.FlowsDown (table : ReachTable) (f : Function) (tree : TreeView)
    (d : Definitions) (seed : ValueSet) : Prop where
  mem_blocks_iff : ∀ b, b ∈ table.blocks ↔ f.flow.Reaches f.entry b
  reached_iff : ∀ b, table.isReached b ↔ f.flow.Reaches f.entry b
  entry : table.get? f.entry = some seed
  block : ∀ b s, table.get? b = some s → b ≠ f.entry → ∃ above upper own,
    tree.parent b = some above ∧ table.get? above = some upper ∧ d.get? above = some own ∧
      (upper.union own).map IndexSet.Growth.set = .ok s

namespace Program

variable {p : Program} {f : Function} {k : FunctionId} {d : Definitions} {seed : ValueSet}
  {settings : Settings} {tree : TreeView}

theorem propagate_spanned (spanned : f.SpannedBy tree) (nonempty : 0 < f.blockCount)
    (collects : p.Collects f settings d seed) :
    ∃ table, d.propagate tree seed settings.order = .ok table ∧ table.FlowsDown f tree d seed := by
  have shaped := spanned.agrees.toShaped
  obtain ⟨table, run, blocks, known, sets⟩ :=
    d.propagate_shaped shaped (collects.admits fun b => spanned.lt_blockCount nonempty)
      settings.order
  have reached : ∀ b, (table.get? b).isSome ↔ f.flow.Reaches f.entry b := fun b =>
    (known b).trans (spanned.leads_iff_reaches nonempty)
  refine ⟨table, run, fun b => ?_, reached, ?_, fun b s found other => ?_⟩
  · rw [blocks, TreeView.mem_walk_iff, spanned.leads_iff_reaches nonempty]
  · obtain ⟨s, found⟩ := Option.isSome_iff_exists.mp ((known tree.root).mpr .here)
    obtain ⟨capacity, members⟩ := sets tree.root s found
    have same : s = seed := by
      refine IndexSet.eq_iff.mpr ⟨capacity, fun v => ?_⟩
      rw [Bool.eq_iff_iff, members]
      exact or_iff_left fun ⟨_, above, _⟩ => shaped.not_properAncestor_root above
    rw [← spanned.root_eq, found, same]
  · have leads := (known b).mp (found ▸ rfl)
    obtain ⟨above, parent, toAbove, listed⟩ := spanned.exists_parent leads other
    obtain ⟨upper, atAbove⟩ := Option.isSome_iff_exists.mp ((known above).mpr toAbove)
    obtain ⟨own, defined⟩ := exists_get?_definitions collects.definitions
      (spanned.lt_blockCount nonempty toAbove)
    obtain ⟨capacity, members⟩ := sets b s found
    obtain ⟨upperCapacity, upperMembers⟩ := sets above upper atAbove
    have size : own.capacity = upper.capacity := by
      rw [collects.uniform above own defined, upperCapacity]
    have defines : ∀ v, d.Defines above v ↔ own.contains v := fun v => by
      simp [Definitions.Defines, defined]
    -- the ancestors of a block are its parent and those of its parent
    have ancestors : ∀ a, tree.ProperAncestor a b ↔ a = above ∨ tree.ProperAncestor a above :=
      fun a => shaped.properAncestor_iff toAbove listed
    refine ⟨above, upper, own, parent, atAbove, defined, IndexSet.map_union_eq_ok_iff.mpr ⟨size, ?_⟩⟩
    refine IndexSet.eq_iff.mpr ⟨upperCapacity.trans capacity.symm, fun v => ?_⟩
    rw [Bool.eq_iff_iff, members, IndexSet.contains_withAll, Bool.or_eq_true, upperMembers,
      ← defines]
    simp only [ancestors, or_and_right, exists_or, exists_eq_left]
    rw [or_assoc, or_comm (a := d.Defines above v)]

theorem runAlong_of_known (known : p.functions[k]? = some f) (settings : Settings)
    (tree : TreeView) : p.runAlong settings k tree = p.reachAlong settings f tree := by
  rw [runAlong, function_eq_ok.mpr known, ok_bind]

/-- The first thing that the analysis does, if asked for checks, is the check. -/
theorem reachAlong_of_checked (checked : settings.checkTree = true) :
    p.reachAlong settings f tree = f.checkTree tree >>= fun _ =>
      (do
        let definitions ← p.definitions f settings.tracked
        definitions.propagate tree (← p.seed f settings) settings.order).mapError Error.fault := by
  rw [reachAlong, if_pos checked]

/-- A tree that fails the check is refused for the reason that the check gives. Along any other tree
values flow from parents to children, over exactly the reachable blocks. -/
theorem runAlong_checked (built : p.Built) (known : p.function k = .ok f)
    (checked : settings.checkTree = true) (tree : TreeView) :
    (∀ error, f.checkTree tree = .error error → p.runAlong settings k tree = .error error) ∧
    (f.checkTree tree = .ok () → ∃ d seed table,
      p.definitions f settings.tracked = .ok d ∧ p.seed f settings = .ok seed ∧
        p.runAlong settings k tree = .ok table ∧ table.FlowsDown f tree d seed) := by
  have wellFormed := built.wellFormed
  have known := function_eq_ok.mp known
  rw [runAlong_of_known known, reachAlong_of_checked checked]
  refine ⟨fun error failed => by rw [failed, error_bind], fun passed => ?_⟩
  obtain ⟨d, seed, collects⟩ := wellFormed.collects known settings
  have spanned := Function.checkTree_eq_ok_iff.mp passed
  obtain ⟨table, run, flows⟩ :=
    propagate_spanned spanned (wellFormed.functions k f known).2.1 collects
  refine ⟨d, seed, table, collects.definitions, collects.seeded, ?_, flows⟩
  rw [passed, ok_bind, collects.definitions, ok_bind, collects.seeded, ok_bind, run]
  rfl

/-- A tree over the blocks of `diamond` that puts the join below one of the branches. -/
def lopsided : LinkTable := ⟨0, [(0, [1, 2]), (1, [3])], [(1, 0), (2, 0), (3, 1)]⟩

/-- The same, with the join listed below both branches. -/
def tangled : LinkTable := ⟨0, [(0, [1, 2]), (1, [3]), (2, [3])], [(1, 0), (2, 0), (3, 1)]⟩

/-- Along the lopsided tree the join receives the value of one branch; the tangled one is refused. -/
theorem runAlong_checked_diamond :
    (∃ table s, diamond.runAlong .standard 0 lopsided.view = .ok table ∧
      table.get? 3 = some s ∧ s.contains 5 = true) ∧
    diamond.runAlong .standard 0 tangled.view =
      .error (.invalidTree (.linksDisagree 3 2 (some 1))) := by
  have fits : diamondFunction.checkTree lopsided.view = .ok () := by with_unfolding_all rfl
  have twice : diamondFunction.checkTree tangled.view =
      .error (.invalidTree (.linksDisagree 3 2 (some 1))) := by with_unfolding_all rfl
  have checked : Settings.standard.checkTree = true := rfl
  refine ⟨?_, (runAlong_checked diamond_built diamond_function checked tangled.view).1 _ twice⟩
  obtain ⟨_, flow⟩ := runAlong_checked diamond_built diamond_function checked lopsided.view
  obtain ⟨d, seed, table, definitions, seeded, run, flows⟩ := flow fits
  obtain ⟨s, found⟩ := Option.isSome_iff_exists.mp ((flows.reached_iff 3).mpr diamond_join.reaches)
  obtain ⟨above, upper, own, parent, atAbove, defined, joined⟩ := flows.block 3 s found (by decide)
  obtain rfl : above = 1 := Option.some.inj parent.symm
  obtain ⟨branch, value, collected, atBranch, member⟩ : ∃ branch value,
      diamond.definitions diamondFunction .integers = .ok branch ∧ branch.get? 1 = some value ∧
        value.contains 5 = true := ⟨_, _, rfl, rfl, rfl⟩
  obtain rfl := Except.ok.inj (definitions.symm.trans collected)
  obtain rfl := Option.some.inj (defined.symm.trans atBranch)
  obtain ⟨size, rfl⟩ := IndexSet.map_union_eq_ok_iff.mp joined
  exact ⟨table, _, run, found, by simp [member]⟩

end Program

end ReachingValues
