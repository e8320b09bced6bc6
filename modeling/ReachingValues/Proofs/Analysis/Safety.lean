import ReachingValues.Proofs.Analysis.Run
import ReachingValues.Proofs.Dominators.Tables

/-!
No stage of the analysis uses an index that its table does not have. Where the plain functions do
without a table, the search and the check below ask for every index whether it is in range, and find
that it is.
-/

namespace ReachingValues

/-- Passes if a table of the given size has all the indices. -/
def inRange (size : Nat) (indices : List Nat) : Except Fault Unit :=
  match indices.find? (size ≤ ·) with
  | some index => .error (.indexOutOfRange index size)
  | none => .ok ()

theorem inRange_of_lt {size : Nat} {indices : List Nat} (bounded : ∀ i ∈ indices, i < size) :
    inRange size indices = .ok () := by
  have none : indices.find? (size ≤ ·) = none :=
    List.find?_eq_none.mpr fun i member => by simpa using bounded i member
  rw [inRange, none]

namespace Graph

variable {α : Type} {g : Graph α} {unmarked stack : List Node}

/-- Enumerates like `depthFirstFrom`, with a mark for each node that can be looked up. -/
def searchInRange (g : Graph α) (unmarked stack : List Node) : Except Fault (List Node) :=
  match stack with
  | [] => .ok []
  | n :: rest => do
    let targets ← g.successorsOf n
    inRange g.nodeCount targets
    let later ← g.searchInRange (stackTargets unmarked rest targets).1
      (stackTargets unmarked rest targets).2
    return n :: later
termination_by unmarked.length + stack.length
decreasing_by
  have kept := stackTargets_length unmarked rest targets
  simp only [List.length_cons]
  omega

/-- Enumerates like `depthFirst`, with every index in sight. -/
def depthFirstInRange (g : Graph α) (start : Node) : Except Fault (List Node) :=
  if g.contains start then g.searchInRange (g.nodes.erase start) [start] else .ok []

/-- Only nodes of the graph come to the stack, since edges lead nowhere else. -/
theorem searchInRange_eq (inside : ∀ n ∈ stack, n < g.nodeCount) :
    g.searchInRange unmarked stack = .ok (g.depthFirstFrom unmarked stack) := by
  induction unmarked, stack using depthFirstFrom.induct g with
  | case1 unmarked => rw [searchInRange, depthFirstFrom]
  | case2 unmarked n rest ih =>
    have targets : ∀ t ∈ g.successors n, t < g.nodeCount :=
      fun t edge => (lt_nodeCount_of_mem_successors edge).2
    have later := ih fun m waiting => (mem_of_mem_stackTargets waiting).elim (targets m)
      fun old => inside m (List.mem_cons_of_mem _ old)
    rw [searchInRange, depthFirstFrom, successorsOf_of_lt (inside n List.mem_cons_self), ok_bind,
      inRange_of_lt targets, ok_bind, later]
    rfl

theorem depthFirstInRange_eq (g : Graph α) (start : Node) :
    g.depthFirstInRange start = .ok (g.depthFirst start) := by
  rw [depthFirstInRange, depthFirst]
  split
  · rename_i contained
    refine searchInRange_eq fun n member => ?_
    rw [List.mem_singleton.mp member]
    exact contains_iff.mp contained
  · rfl

end Graph

/-- Checks a tree like `checkTree`, with a mark for each block that can be looked up. -/
def Function.checkTreeInRange (f : Function) (tree : TreeView) : Except Error Unit := do
  if tree.root ≠ f.entry then throw (.rootMismatch f.entry tree.root)
  if (tree.parent tree.root).isSome then throw (.invalidTree (.rootHasParent tree.root))
  (inRange f.blockCount [tree.root]).mapError Error.fault
  let missing ← TreeCheck.search tree f.blockCount (f.flow.nodes.erase tree.root) [tree.root]
  let reachable ← (f.flow.depthFirstInRange f.entry).mapError Error.fault
  (inRange f.blockCount reachable).mapError Error.fault
  TreeCheck.compare f.blockCount missing reachable

/-- A function that has a block has its entry, and it reaches only blocks that it has. -/
theorem Function.checkTreeInRange_eq {f : Function} (nonempty : 0 < f.blockCount)
    (tree : TreeView) : f.checkTreeInRange tree = f.checkTree tree := by
  have reached : inRange f.blockCount f.reachableBlocks = .ok () :=
    inRange_of_lt fun b member =>
      Graph.contains_iff.mp (Graph.mem_depthFirst_iff.mp member).contains.2
  unfold checkTreeInRange checkTree
  by_cases root : tree.root = f.entry
  · have first : inRange f.blockCount [tree.root] = .ok () := inRange_of_lt (by simpa [root])
    rw [if_neg (not_not_intro root), if_neg (not_not_intro root), first,
      Graph.depthFirstInRange_eq, ← reachableBlocks]
    simp only [mapError_ok, ok_bind, reached]
  · rw [if_pos root, if_pos root]
    rfl

namespace Program

variable {p : Program} {f : Function} {k : FunctionId}

/-- Every stage of the analysis of a function succeeds with all its tables in sight: the dominator
tree, the enumeration of the reachable blocks, the definitions, the seed, the check of the tree and
the walk. -/
theorem stages_ok (built : p.Built) (known : p.function k = .ok f) (settings : Settings) :
    ∃ t d seed table,
      f.dominatorTree = .ok t ∧
      f.flow.dominatorTables f.entry =
        .ok (t.links.setIfInBounds f.entry (some f.entry), t.children) ∧
      (∀ rank (forest : Forest) n, forest.lowestLinked rank n = forest.lowest rank n) ∧
      f.flow.depthFirstInRange f.entry = .ok f.reachableBlocks ∧
      p.definitions f settings.tracked = .ok d ∧
      p.seed f settings = .ok seed ∧
      f.checkTreeInRange t.view = .ok () ∧
      d.propagate t.view seed settings.order = .ok table ∧
      p.run settings k = .ok table := by
  have atK := function_eq_ok.mp known
  have nonempty := (built.wellFormed.functions k f atK).2.1
  obtain ⟨d, seed, collects⟩ := built.wellFormed.collects atK settings
  obtain ⟨t, dominators, faithful, tables⟩ := f.flow.dominatorTables_eq f.entry
  obtain ⟨t', dominators', _, passed⟩ := f.exists_dominatorTree
  obtain rfl := Except.ok.inj (dominators.symm.trans dominators')
  obtain ⟨table, walk, _⟩ :=
    d.propagate_shaped faithful.view_shaped (collects.admits_view nonempty faithful) settings.order
  refine ⟨t, d, seed, table, dominators, tables, Forest.lowestLinked_eq,
    Graph.depthFirstInRange_eq _ _, collects.definitions, collects.seeded,
    (Function.checkTreeInRange_eq nonempty _).trans passed, walk, ?_⟩
  obtain ⟨u, other, along⟩ := p.reach_eq f
  obtain rfl := faithful.unique other
  rw [run_of_known atK, along, collects.definitions, ok_bind, collects.seeded, ok_bind, walk,
    mapError_ok]

/-- The stages for the function with two branches that meet again. -/
theorem stages_ok_diamond : diamond.function 0 = .ok diamondFunction ∧
    diamondFunction.flow.depthFirstInRange 0 = .ok diamondFunction.reachableBlocks ∧
    ∃ t table, diamondFunction.dominatorTree = .ok t ∧
      diamondFunction.checkTreeInRange t.view = .ok () ∧
      diamond.run .standard 0 = .ok table := by
  obtain ⟨t, d, seed, table, dominators, _, _, search, _, _, check, _, run⟩ :=
    stages_ok diamond_built diamond_function .standard
  exact ⟨diamond_function, search, t, table, dominators, check, run⟩

end Program

end ReachingValues
