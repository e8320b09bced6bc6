import ReachingValues.Analysis.TreeCheck
import ReachingValues.Proofs.Dominators.Children
import ReachingValues.Proofs.Graph.Search
import ReachingValues.Proofs.Tree.Walk

/-!
The check lets every tree pass that spans the reachable blocks and no other, and a computed dominator
tree is one. The enumeration of the reachable blocks and the search behind the dominators go through
the graph in different orders; each is compared with the paths of the graph and so with the other.
-/

namespace ReachingValues

/-- The links below the root form a tree of blocks, and the links upwards agree with it. -/
structure TreeView.Agrees (t : TreeView) (blockCount : Nat) : Prop extends t.Shaped where
  listed : ∀ p c, t.Leads t.root p → c ∈ t.children p →
    c < blockCount ∧ c ≠ p ∧ t.parent c = some p

/-- Of two nodes that list the same child, the child names only one as its parent. -/
theorem TreeView.agrees_of_listed {t : TreeView} {blockCount : Nat} (top : t.parent t.root = none)
    (below : ∀ p, t.Leads t.root p → (t.children p).Nodup ∧
      ∀ c ∈ t.children p, c < blockCount ∧ c ≠ p ∧ t.parent c = some p) : t.Agrees blockCount := by
  refine ⟨⟨fun p leads listed => ?_, fun p q c leads also listed twice => ?_,
    fun p leads => (below p leads).1⟩, fun p c leads => (below p leads).2 c⟩
  · have parent := ((below p leads).2 _ listed).2.2
    exact absurd (top.symm.trans parent) (by simp)
  · have one := ((below p leads).2 c listed).2.2
    have other := ((below q also).2 c twice).2.2
    exact Option.some.inj (one.symm.trans other)

namespace TreeCheck

variable {tree : TreeView} {blockCount : Nat} {node : Node} {missing waiting done : List Node}

theorem strike_ok {children : List Node} (distinct : missing.Nodup) (once : children.Nodup)
    (fits : ∀ c ∈ children, c < blockCount ∧ c ≠ node ∧ tree.parent c = some node)
    (subset : children ⊆ missing) :
    ∃ left, strike tree blockCount node missing children = .ok left ∧ left.Nodup ∧
      ∀ b, b ∈ left ↔ b ∈ missing ∧ b ∉ children := by
  induction children generalizing missing with
  | nil => exact ⟨missing, rfl, distinct, by simp⟩
  | cons child rest ih =>
    obtain ⟨fresh, once⟩ := List.nodup_cons.mp once
    obtain ⟨inside, other, parent⟩ := fits child List.mem_cons_self
    obtain ⟨left, run, kept, members⟩ := ih (distinct.erase child) once
      (fun c later => fits c (List.mem_cons_of_mem _ later)) (by
        intro c later
        have different : c ≠ child := by rintro rfl; exact fresh later
        exact (List.mem_erase_of_ne different).mpr (subset (List.mem_cons_of_mem _ later)))
    refine ⟨left, ?_, kept, fun b => ?_⟩
    · rw [strike, if_neg (Nat.not_le.mpr inside), if_neg (by simp [other, parent]),
        if_pos (subset List.mem_cons_self)]
      exact run
    · rw [members, distinct.mem_erase_iff, List.mem_cons, not_or, and_assoc, and_left_comm]

/-- Nothing passes that was struck off before, so no child is listed twice. -/
theorem strike_passed {children left : List Node} (distinct : missing.Nodup)
    (passed : strike tree blockCount node missing children = .ok left) :
    left.Nodup ∧ children.Nodup ∧ children ⊆ missing ∧
      ∀ c ∈ children, c < blockCount ∧ c ≠ node ∧ tree.parent c = some node := by
  induction children generalizing missing with
  | nil =>
    obtain rfl := Except.ok.inj passed
    exact ⟨distinct, List.nodup_nil, List.nil_subset _, by simp⟩
  | cons child rest ih =>
    unfold strike at passed
    split at passed
    · cases passed
    rename_i inside
    split at passed
    · cases passed
    rename_i agree
    split at passed
    · rename_i fresh
      obtain ⟨kept, once, subset, fits⟩ := ih (distinct.erase child) passed
      simp only [not_or, ne_eq, Decidable.not_not] at agree
      refine ⟨kept, List.nodup_cons.mpr ⟨fun again => ?_, once⟩,
        List.cons_subset.mpr ⟨fresh, fun c later => List.mem_of_mem_erase (subset later)⟩,
        List.forall_mem_cons.mpr ⟨⟨Nat.not_le.mp inside, agree⟩, fits⟩⟩
      exact distinct.not_mem_erase (subset again)
    · cases passed

theorem search_cons (tree : TreeView) (blockCount : Nat) (missing : List Node) (node : Node)
    (rest : List Node) : search tree blockCount missing (node :: rest) =
      strike tree blockCount node missing (tree.children node) >>= fun left =>
        search tree blockCount left (Order.depthFirst.join (tree.children node) rest) := by
  rw [search]
  split <;> simp_all

/-- The search after the children of the nodes in `done` have been struck off. -/
structure Searched (tree : TreeView) (blockCount : Nat) (done missing waiting : List Node) :
    Prop where
  distinct : missing.Nodup
  missing_iff : ∀ b, b ∈ missing ↔
    b < blockCount ∧ b ≠ tree.root ∧ ∀ p ∈ done, b ∉ tree.children p
  once : (waiting ++ done).Nodup
  met_iff : ∀ n, n ∈ waiting ++ done ↔ n = tree.root ∨ ∃ p ∈ done, n ∈ tree.children p
  led : ∀ n ∈ waiting ++ done, tree.Leads tree.root n
  passed : ∀ p ∈ done, (tree.children p).Nodup ∧
    ∀ c ∈ tree.children p, c < blockCount ∧ c ≠ p ∧ tree.parent c = some p

namespace Searched

theorem start :
    Searched tree blockCount [] ((List.range blockCount).erase tree.root) [tree.root] where
  distinct := List.nodup_range.erase _
  missing_iff b := by
    rw [List.nodup_range.mem_erase_iff, List.mem_range]
    simp [and_comm]
  once := by simp
  met_iff := by simp
  led n member := by
    have same : n = tree.root := by simpa using member
    exact same ▸ .here
  passed := by simp

theorem step {left : List Node}
    (searched : Searched tree blockCount done missing (node :: waiting))
    (struck : strike tree blockCount node missing (tree.children node) = .ok left) :
    Searched tree blockCount (node :: done) left
      (Order.depthFirst.join (tree.children node) waiting) := by
  have atNode := searched.led node (by simp)
  obtain ⟨kept, once, subset, fits⟩ := strike_passed searched.distinct struck
  obtain ⟨same, again, _, members⟩ := strike_ok searched.distinct once fits subset
  obtain rfl := Except.ok.inj (again.symm.trans struck)
  have moved := Order.depthFirst.join_perm (tree.children node) waiting done node
  have met : ∀ n, n ∈ Order.depthFirst.join (tree.children node) waiting ++ node :: done ↔
      n ∈ tree.children node ∨ n ∈ node :: waiting ++ done := fun n =>
    moved.mem_iff.trans List.mem_append
  refine ⟨kept, fun b => ?_, ?_, fun n => ?_, fun n member => ?_, ?_⟩
  · simp only [members, searched.missing_iff, List.forall_mem_cons]
    rw [and_assoc, and_assoc, and_comm (a := ∀ p ∈ done, b ∉ tree.children p)]
  · refine Order.nodup_join once searched.once fun c listed old => ?_
    obtain ⟨_, notRoot, unlisted⟩ := (searched.missing_iff c).mp (subset listed)
    rcases (searched.met_iff c).mp old with same | ⟨p, visited, also⟩
    · exact notRoot same
    · exact unlisted p visited also
  · simp only [met, searched.met_iff, List.mem_cons, or_and_right, exists_or, exists_eq_left]
    exact or_left_comm
  · rcases (met n).mp member with listed | old
    · exact atNode.concat listed
    · exact searched.led n old
  · exact List.forall_mem_cons.mpr ⟨⟨once, fits⟩, searched.passed⟩

/-- The search comes to the end of the tree or gets stuck at the children of some node. -/
theorem ends (searched : Searched tree blockCount done missing waiting) :
    (∃ left visited, search tree blockCount missing waiting = .ok left ∧
      Searched tree blockCount visited left []) ∨
    ∃ error left visited n rest, search tree blockCount missing waiting = .error error ∧
      Searched tree blockCount visited left (n :: rest) ∧
      strike tree blockCount n left (tree.children n) = .error error := by
  induction missing, waiting using search.induct tree blockCount generalizing done with
  | case1 missing => exact Or.inl ⟨missing, done, by rw [search], searched⟩
  | case2 missing node rest error failed =>
    refine Or.inr ⟨error, missing, done, node, rest, ?_, searched, failed⟩
    rw [search_cons, failed, error_bind]
  | case3 missing node rest left passed ih =>
    rw [search_cons, passed, ok_bind]
    exact ih (searched.step passed)

theorem frontier (searched : Searched tree blockCount done missing waiting) :
    tree.Frontier done waiting where
  once := searched.once
  met n member := (searched.met_iff n).mp member
  led := searched.led

/-- No child of the node has been met before: it would be listed twice. -/
theorem children_subset (searched : Searched tree blockCount done missing (node :: waiting))
    (agrees : tree.Agrees blockCount) : tree.children node ⊆ missing := by
  intro c listed
  have atNode := searched.led node (by simp)
  have fresh := searched.frontier.fresh agrees.toShaped listed
  rw [searched.met_iff, not_or, not_exists] at fresh
  exact (searched.missing_iff c).mpr ⟨(agrees.listed node c atNode listed).1, fresh.1,
    fun p visited also => fresh.2 p ⟨visited, also⟩⟩

/-- When nothing waits any more, the whole tree has been searched. -/
theorem mem_done_iff (searched : Searched tree blockCount done missing []) (b : Node) :
    b ∈ done ↔ tree.Leads tree.root b := by
  refine ⟨fun visited => searched.led b (by simpa using visited), fun leads => ?_⟩
  refine leads.induct (fun p c visited listed => ?_) ?_
  · simpa using (searched.met_iff c).mpr (Or.inr ⟨p, visited, listed⟩)
  · simpa using (searched.met_iff tree.root).mpr (Or.inl rfl)

theorem missing_iff_not_leads (searched : Searched tree blockCount done missing []) (b : Node) :
    b ∈ missing ↔ b < blockCount ∧ ¬ tree.Leads tree.root b := by
  have old := searched.met_iff b
  rw [List.nil_append] at old
  rw [searched.missing_iff, ← searched.mem_done_iff, old, not_or, not_exists]
  simp only [not_and, ne_eq]

theorem agrees (searched : Searched tree blockCount done missing [])
    (top : tree.parent tree.root = none) : tree.Agrees blockCount :=
  TreeView.agrees_of_listed top fun p leads =>
    searched.passed p ((searched.mem_done_iff p).mpr leads)

end Searched

theorem search_ok (agrees : tree.Agrees blockCount)
    (searched : Searched tree blockCount done missing waiting) :
    ∃ left, search tree blockCount missing waiting = .ok left ∧
      ∀ b, b ∈ left ↔ b < blockCount ∧ ¬ tree.Leads tree.root b := by
  rcases searched.ends with ⟨left, _, run, ended⟩ | ⟨_, _, _, n, _, _, stuck, failed⟩
  · exact ⟨left, run, ended.missing_iff_not_leads⟩
  · have atN := stuck.led n (by simp)
    obtain ⟨_, passed, _⟩ := strike_ok stuck.distinct (agrees.children_nodup n atN)
      (fun c => agrees.listed n c atN) (stuck.children_subset agrees)
    exact absurd (failed.symm.trans passed) (by simp)

theorem agrees_of_passed {left : List Node} (top : tree.parent tree.root = none)
    (passed : search tree blockCount ((List.range blockCount).erase tree.root) [tree.root] =
      .ok left) : tree.Agrees blockCount := by
  rcases Searched.start.ends with ⟨_, _, _, ended⟩ | ⟨_, _, _, _, _, failed, _⟩
  · exact ended.agrees top
  · exact absurd (failed.symm.trans passed) (by simp)

theorem compare_ok {reachable : List Node}
    (complete : ∀ b, b ∈ missing ↔ b < blockCount ∧ b ∉ reachable) :
    compare blockCount missing reachable = .ok () := by
  have first : reachable.find? (missing.contains ·) = none := by
    rw [List.find?_eq_none]
    intro b reached absent
    exact ((complete b).mp (by simpa using absent)).2 reached
  have second : (List.range blockCount).find?
      (fun b => !missing.contains b && !reachable.contains b) = none := by
    rw [List.find?_eq_none]
    intro b inside neither
    simp only [Bool.and_eq_true, Bool.not_eq_true', List.contains_eq_mem, decide_eq_false_iff_not]
      at neither
    exact neither.1 ((complete b).mpr ⟨List.mem_range.mp inside, neither.2⟩)
  rw [compare, first, second]

theorem compare_passed {reachable : List Node}
    (passed : compare blockCount missing reachable = .ok ()) :
    ∀ b < blockCount, b ∉ missing ↔ b ∈ reachable := by
  unfold compare at passed
  split at passed
  · cases passed
  rename_i complete
  split at passed
  · cases passed
  rename_i sound
  intro b inside
  have covered := List.find?_eq_none.mp complete b
  have justified := List.find?_eq_none.mp sound b (List.mem_range.mpr inside)
  simp only [List.contains_eq_mem, decide_eq_true_eq] at covered
  simp only [List.contains_eq_mem, Bool.and_eq_true, Bool.not_eq_true', decide_eq_false_iff_not,
    not_and, Decidable.not_not] at justified
  exact ⟨justified, fun reached absent => covered reached absent⟩

end TreeCheck

namespace Function

variable {f : Function} {tree : TreeView}

theorem checkTree_of_misrooted (other : tree.root ≠ f.entry) :
    f.checkTree tree = .error (.rootMismatch f.entry tree.root) := by
  rw [checkTree, if_pos other]
  rfl

theorem checkTree_of_rootBelow (root : tree.root = f.entry) (top : tree.parent tree.root ≠ none) :
    f.checkTree tree = .error (.invalidTree (.rootHasParent tree.root)) := by
  rw [checkTree, if_neg (by simp [root]), if_pos (Option.isSome_iff_ne_none.mpr top)]
  rfl

/-- A tree with the right root and nothing above it is searched. -/
theorem checkTree_eq (root : tree.root = f.entry) (top : tree.parent tree.root = none) :
    f.checkTree tree =
      TreeCheck.search tree f.blockCount ((List.range f.blockCount).erase tree.root) [tree.root] >>=
        fun missing => TreeCheck.compare f.blockCount missing f.reachableBlocks := by
  rw [checkTree, if_neg (by simp [root]), if_neg (by simp [top])]
  rfl

theorem checkTree_ok (root : tree.root = f.entry) (top : tree.parent tree.root = none)
    (agrees : tree.Agrees f.blockCount)
    (spans : ∀ b < f.blockCount, tree.Leads tree.root b ↔ b ∈ f.reachableBlocks) :
    f.checkTree tree = .ok () := by
  obtain ⟨left, run, members⟩ := TreeCheck.search_ok agrees .start
  have complete : ∀ b, b ∈ left ↔ b < f.blockCount ∧ b ∉ f.reachableBlocks := fun b => by
    rw [members]
    exact and_congr_right fun inside => not_congr (spans b inside)
  rw [checkTree_eq root top, run, ok_bind]
  exact TreeCheck.compare_ok complete

/-- The tree is rooted at the entry and holds the reachable blocks, each in one place. -/
structure SpannedBy (f : Function) (tree : TreeView) : Prop where
  root_eq : tree.root = f.entry
  root_parent : tree.parent tree.root = none
  agrees : tree.Agrees f.blockCount
  leads_iff : ∀ b < f.blockCount, tree.Leads tree.root b ↔ b ∈ f.reachableBlocks

theorem rooted_of_passed (passed : f.checkTree tree = .ok ()) :
    tree.root = f.entry ∧ tree.parent tree.root = none := by
  have root : tree.root = f.entry := Classical.byContradiction fun other => by
    simp [checkTree_of_misrooted other] at passed
  have top : tree.parent tree.root = none := Classical.byContradiction fun above => by
    simp [checkTree_of_rootBelow root above] at passed
  exact ⟨root, top⟩

theorem checkTree_eq_ok_iff : f.checkTree tree = .ok () ↔ f.SpannedBy tree := by
  constructor
  · intro passed
    obtain ⟨root, top⟩ := rooted_of_passed passed
    rw [checkTree_eq root top] at passed
    cases run : TreeCheck.search tree f.blockCount ((List.range f.blockCount).erase tree.root)
        [tree.root] with
    | error error => simp [run] at passed
    | ok missing =>
      rw [run, ok_bind] at passed
      have agrees : tree.Agrees f.blockCount := TreeCheck.agrees_of_passed top run
      obtain ⟨left, again, members⟩ := TreeCheck.search_ok agrees .start
      obtain rfl := Except.ok.inj (again.symm.trans run)
      refine ⟨root, top, agrees, fun b inside => ?_⟩
      rw [← TreeCheck.compare_passed passed b inside, members]
      simp [inside]
  · intro spanned
    exact checkTree_ok spanned.root_eq spanned.root_parent spanned.agrees spanned.leads_iff

/-- The dominator tree that a function computes for itself passes its check. -/
theorem exists_dominatorTree (f : Function) : ∃ t, f.dominatorTree = .ok t ∧
    t.Faithful f.flow f.entry ∧ f.checkTree t.view = .ok () := by
  obtain ⟨t, run, faithful⟩ := f.flow.dominatorTree_faithful f.entry
  refine ⟨t, run, faithful, checkTree_ok faithful.entry_eq ?_ ?_ ?_⟩
  · exact faithful.immediateDominator_eq_none (Or.inl faithful.entry_eq)
  · refine ⟨faithful.view_shaped, fun p c _ listed => ?_⟩
    have immediate := faithful.mem_children_iff.mp listed
    exact ⟨Graph.contains_iff.mp immediate.strict.2.1.contains.2, Ne.symm immediate.strict.1,
      (faithful.immediateDominator_iff c p).mpr immediate⟩
  · intro b inside
    have entry : f.flow.contains f.entry :=
      Graph.contains_iff.mpr (Nat.lt_of_le_of_lt (Nat.zero_le b) inside)
    rw [faithful.leads_root_iff entry, reachableBlocks, Graph.mem_depthFirst_iff]

end Function

end ReachingValues
