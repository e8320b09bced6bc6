import ReachingValues.Proofs.Analysis.Alike
import ReachingValues.Proofs.Analysis.SuppliedTree
import ReachingValues.Proofs.Dominators.RootedTree
import ReachingValues.Proofs.Tree.Growth

/-!
The copy of a tree, grown from the root down. Nothing is looked up on the way: a node that came up
twice would be attached twice, and links in a circle would be followed without end. Along a tree the
children of a node that is taken are new, so every node is attached once, below the one that lists
it, and the copy gives the same answers.
-/

namespace ReachingValues

variable {t : TreeView} {copy : GrownTree} {n p : Node} {visited waiting : List Node}

namespace GrownTree

/-- Attaches nodes below a node, one after the other. -/
def attachAll (copy : GrownTree) (parent : Node) (children : List Node) : GrownTree :=
  children.foldl (fun copy child => copy.attach parent child) copy

/-- Attaches the nodes that a view lists below a node. -/
def expand (t : TreeView) (copy : GrownTree) (n : Node) : GrownTree :=
  copy.attachAll n (t.children n)

theorem attachAll_cons (copy : GrownTree) (parent child : Node) (rest : List Node) :
    copy.attachAll parent (child :: rest) = (copy.attach parent child).attachAll parent rest := rfl

theorem contains_attachAll (copy : GrownTree) (parent : Node) (children : List Node) (n : Node) :
    (copy.attachAll parent children).contains n ↔ n ∈ children ∨ copy.contains n := by
  induction children generalizing copy with
  | nil => simp [attachAll]
  | cons c rest ih =>
    rw [attachAll_cons, ih, contains_attach, List.mem_cons]
    by_cases same : n = c <;> simp [same]

/-- What is there before the root has a place. -/
def bare (root : Node) : GrownTree := ⟨root, #[]⟩

namespace Columns

/-- Makes the tree with the root alone. -/
def plant (root : Node) : InPlace Columns Unit := do
  reserve root
  InPlace.amend present (fun t changed => { t with present := changed }) root fun _ => true

def attachAll (parent : Node) : List Node → InPlace Columns Unit
  | [] => return
  | child :: rest => do
    attach parent child
    attachAll parent rest

/-- The copying of a view in place, followed to its end: the node on top of the stack is taken, and
its children are attached below it and put on the stack. -/
inductive Copies (t : TreeView) : List Node → Columns → Columns → Prop
  | done {s : Columns} : Copies t [] s s
  | take {n : Node} {rest : List Node} {s later final : Columns} :
      (attachAll n (t.children n)).outcome s = (.ok (), later) →
      Copies t ((t.children n).reverse ++ rest) later final → Copies t (n :: rest) s final

theorem columns_bare (root : Node) : (bare root).columns = ⟨root, #[], #[], #[]⟩ := by
  simp [columns, column, bare]

theorem outcome_plant (root : Node) :
    (plant root).outcome (bare root).columns = (.ok (), (single root).columns) := by
  have size : (single root).places.size = max (bare root).places.size (root + 1) := by
    rw [single, Array.size_setIfInBounds, size_lengthen, bare]
  have parents : (single root).parent = (bare root).parent := by
    funext n
    rw [parent, node?_single]
    split <;> rfl
  have children : (single root).children = (bare root).children := by
    funext n
    rw [GrownTree.children, node?_single]
    split <;> rfl
  have marks : ∀ n, (single root).contains n = if n = root then true else (bare root).contains n :=
    fun n => by
      rw [GrownTree.contains, node?_single]
      split <;> rfl
  have present : (column (bare root).contains (max (bare root).places.size (root + 1))).modify root
      (fun _ => true) = column (single root).contains (max (bare root).places.size (root + 1)) :=
    column_modify marks
  have room : root < max (bare root).places.size (root + 1) :=
    Nat.lt_of_lt_of_le (Nat.lt_succ_self root) (Nat.le_max_right _ _)
  rw [plant, InPlace.outcome_bind (outcome_reserve _ root),
    InPlace.outcome_amend (size_column.symm ▸ room), columns, size, parents, children]
  simp only [present]
  rfl

end Columns

/-- New nodes that are attached below a known one, one after the other, are the next that the tree
is grown by. -/
theorem GrownBy.attachAll {added : List (Node × Node)} {children : List Node}
    (grown : copy.GrownBy added) (known : copy.contains n) (once : children.Nodup)
    (absent : ∀ c ∈ children, ¬ copy.contains c) :
    let later := copy.attachAll n children
    later.root = copy.root ∧ later.GrownBy (added ++ children.map (n, ·)) ∧
      (Columns.attachAll n children).outcome copy.columns = (.ok (), later.columns) := by
  induction children generalizing copy added with
  | nil => exact ⟨rfl, by simpa [GrownTree.attachAll] using grown, rfl⟩
  | cons c rest ih =>
    obtain ⟨fresh, once⟩ := List.nodup_cons.mp once
    have new := absent c List.mem_cons_self
    have still : (copy.attach n c).contains n := by
      rw [contains_attach, known, ite_self]
    obtain ⟨root, grownBy, run⟩ := ih (grown.attach known new) still once fun d later => by
      have other : d ≠ c := fun same => fresh (same ▸ later)
      rw [contains_attach, if_neg other]
      exact absent d (List.mem_cons_of_mem _ later)
    refine ⟨root, by simpa [attachAll_cons] using grownBy, ?_⟩
    rw [Columns.attachAll, InPlace.outcome_bind (Columns.outcome_attach known new)]
    exact run

/-- The copy when the nodes in `visited`, the latest first, have been taken and others wait. -/
structure Copying (t : TreeView) (visited waiting : List Node) (copy : GrownTree) : Prop where
  root_eq : copy.root = t.root
  grown : copy.GrownBy (fanOut t.children visited.reverse)
  contains_iff : ∀ n, copy.contains n ↔ n ∈ waiting ++ visited
  once : (waiting ++ visited).Nodup
  led : ∀ n ∈ waiting ++ visited, t.Leads t.root n

namespace Copying

theorem start (t : TreeView) : Copying t [] [t.root] (single t.root) where
  root_eq := rfl
  grown := .single t.root
  contains_iff n := by
    rw [contains, node?_single]
    split <;> simp_all
  once := by simp
  led n member := by
    have same : n = t.root := by simpa using member
    exact same ▸ .here

theorem frontier (copying : Copying t visited waiting copy) : t.Frontier visited waiting where
  once := copying.once
  met m member := by
    rcases (copying.grown.contains_iff m).mp ((copying.contains_iff m).mpr member) with same | added
    · exact Or.inl (same.trans copying.root_eq)
    · rw [map_snd_fanOut, List.mem_flatMap] at added
      obtain ⟨p, passed, listed⟩ := added
      exact Or.inr ⟨p, List.mem_reverse.mp passed, listed⟩
  led := copying.led

variable (shaped : t.Shaped)

include shaped

/-- A child of a node that is taken is neither the root nor listed by a node taken before. -/
theorem absent (copying : Copying t visited (n :: waiting) copy) :
    ∀ c ∈ t.children n, ¬ copy.contains c := fun c listed known =>
  copying.frontier.fresh shaped listed ((copying.contains_iff c).mp known)

theorem take (copying : Copying t visited (n :: waiting) copy) :
    (Columns.attachAll n (t.children n)).outcome copy.columns =
      (.ok (), (expand t copy n).columns) ∧
    Copying t (n :: visited) (Order.depthFirst.join (t.children n) waiting) (expand t copy n) := by
  have atNode := copying.led n (by simp)
  have known := (copying.contains_iff n).mpr (by simp)
  -- the node is there and its children are not, so nothing has to be looked up
  have absent := copying.absent shaped
  have once := shaped.children_nodup n atNode
  obtain ⟨root, grown, run⟩ := copying.grown.attachAll known once absent
  have moved := Order.depthFirst.join_perm (t.children n) waiting visited n
  have pairs : fanOut t.children (n :: visited).reverse =
      fanOut t.children visited.reverse ++ (t.children n).map (n, ·) := by
    rw [List.reverse_cons, fanOut_concat]
  have later := copying.frontier.visit shaped .depthFirst
  refine ⟨run, root.trans copying.root_eq, pairs ▸ grown, fun m => ?_, later.once, later.led⟩
  rw [expand, contains_attachAll, moved.mem_iff, List.mem_append, copying.contains_iff]

/-- No node comes up twice, so the copying takes the nodes in the order of the walk, which looks up
every node. -/
theorem copies (copying : Copying t visited waiting copy) :
    let nodes := t.walkFrom .depthFirst visited waiting
    Columns.Copies t waiting copy.columns (nodes.foldl (expand t) copy).columns ∧
      Copying t (nodes.reverse ++ visited) [] (nodes.foldl (expand t) copy) := by
  induction visited, waiting using TreeView.walkFrom.induct t .depthFirst generalizing copy with
  | case1 visited =>
    rw [TreeView.walkFrom]
    exact ⟨.done, copying⟩
  | case2 visited n rest old =>
    exact absurd (List.mem_append_right rest old) (List.nodup_cons.mp copying.once).1
  | case3 visited n rest fresh ih =>
    obtain ⟨run, copying⟩ := copying.take shaped
    obtain ⟨rest, ended⟩ := ih copying
    rw [TreeView.walkFrom, if_neg fresh]
    exact ⟨.take run rest, by simpa using ended⟩

end Copying

/-- A grown tree answers for every handle, unknown ones among them, what a computed one answers. -/
structure Mirrors (copy : GrownTree) (t : DominatorTree) : Prop where
  root_eq : copy.root = t.entry
  contains_eq : ∀ n, copy.contains n = t.isReachable n
  parent_eq : ∀ n, copy.parent n = t.immediateDominator n
  children_eq : ∀ n, copy.children n = t.childrenOf n
  size_eq : copy.size = t.reachableCount

theorem Mirrors.alike {t : DominatorTree} (mirrors : copy.Mirrors t) : t.view.Alike copy.view where
  root_eq := mirrors.root_eq.symm
  children_eq n := (mirrors.children_eq n).symm
  parent_eq n := (mirrors.parent_eq n).symm

section Faithful

variable {α : Type} {g : Graph α} {entry : Node} {t : DominatorTree}

theorem copies_ofDominators (faithful : t.Faithful g entry) :
    Columns.Copies t.view [t.entry] (single t.entry).columns (ofDominators t).columns :=
  ((Copying.start t.view).copies faithful.view_shaped).1

theorem ofDominators_mirrors (faithful : t.Faithful g entry) (inside : g.contains entry) :
    (ofDominators t).Mirrors t := by
  have ended : Copying t.view ((t.view.walk .depthFirst).reverse ++ []) [] (ofDominators t) :=
    ((Copying.start t.view).copies faithful.view_shaped).2
  rw [List.append_nil] at ended
  have grown : (ofDominators t).GrownBy (fanOut t.childrenOf (t.view.walk .depthFirst)) :=
    (t.view.walk .depthFirst).reverse_reverse ▸ ended.grown
  have walked : ∀ n, n ∈ t.view.walk .depthFirst ↔ g.Reaches entry n := fun n =>
    TreeView.mem_walk_iff.trans (faithful.leads_root_iff inside)
  have member : ∀ n, (ofDominators t).contains n ↔ g.Reaches entry n := fun n => by
    rw [ended.contains_iff, List.nil_append, List.mem_reverse, walked]
  have listing : ∀ p c, c ∈ t.childrenOf p → p ∈ t.view.walk .depthFirst := fun p c listed =>
    (walked p).mpr (faithful.mem_children_iff.mp listed).strict.2.reaches
  refine ⟨ended.root_eq, fun n => ?_, fun n => ?_, fun n => ?_, ?_⟩
  · rw [Bool.eq_iff_iff, member, faithful.isReachable_iff]
  · refine Option.ext fun p => ?_
    rw [grown.parent_iff, mem_fanOut, faithful.immediateDominator_iff, ← faithful.mem_children_iff]
    exact and_iff_right_of_imp (listing p n)
  · rw [grown.children_eq, targets_of_fanOut TreeView.walk_nodup]
    split
    · rfl
    · rename_i unwalked
      exact (List.eq_nil_iff_forall_not_mem.mpr fun c => mt (listing n c) unwalked).symm
  · have same := (List.perm_ext_iff_of_nodup grown.once DominatorTree.reachable_nodup).mpr
      fun n => by rw [List.mem_cons, ← grown.contains_iff, member, faithful.mem_reachable_iff]
    rw [grown.size_eq, ← DominatorTree.length_reachable, ← same.length_eq, List.length_cons,
      List.length_map, Nat.add_comm]

end Faithful

/-- The copying of a computed tree comes to an end, the copy cannot be told from the tree, and so
the analysis along the copy is the analysis. -/
theorem ofDominators_faithful :
    (∀ {α : Type} (g : Graph α) (entry : Node), g.contains entry →
      ∃ t planted, g.dominatorTree entry = .ok t ∧
        (Columns.plant entry).outcome ⟨entry, #[], #[], #[]⟩ = (.ok (), planted) ∧
        Columns.Copies t.view [entry] planted (ofDominators t).columns ∧
        (ofDominators t).root = entry ∧
        (∀ n, (ofDominators t).contains n = t.isReachable n ∧
          (ofDominators t).parent n = t.immediateDominator n ∧
          (ofDominators t).children n = t.childrenOf n) ∧
        (ofDominators t).size = t.reachableCount) ∧
    ∀ {p : Program} {k : FunctionId} {f : Function}, p.Built → p.function k = .ok f →
      ∀ settings, ∃ t table, f.dominatorTree = .ok t ∧ p.run settings k = .ok table ∧
        p.runAlong settings k (ofDominators t).view = .ok table := by
  constructor
  · intro α g entry inside
    obtain ⟨t, run, faithful⟩ := g.dominatorTree_faithful entry
    have mirrors := ofDominators_mirrors faithful inside
    obtain rfl : t.entry = entry := faithful.entry_eq
    exact ⟨t, _, run, Columns.columns_bare t.entry ▸ Columns.outcome_plant t.entry,
      copies_ofDominators faithful, mirrors.root_eq,
      fun n => ⟨mirrors.contains_eq n, mirrors.parent_eq n, mirrors.children_eq n⟩,
      mirrors.size_eq⟩
  · intro p k f built known settings
    have wellFormed := built.wellFormed
    have known := Program.function_eq_ok.mp known
    have inside : f.flow.contains f.entry :=
      Graph.contains_iff.mpr (wellFormed.functions k f known).2.1
    obtain ⟨t, run, faithful⟩ := f.flow.dominatorTree_faithful f.entry
    have mirrors := ofDominators_mirrors faithful inside
    obtain ⟨_, _, table, _, ran, _⟩ := wellFormed.run_ok known settings
    have computed : f.dominatorTree = .ok t := run
    refine ⟨t, table, computed, ran, ?_⟩
    rw [Program.runAlong_of_known known, ← mirrors.alike.reachAlong_eq, ← ran,
      Program.run_of_known known, Program.reach, computed]
    rfl

theorem ofDominators_faithful_diamond :
    Graph.circle.contains 0 ∧
    (∃ t, Graph.circle.dominatorTree 0 = .ok t ∧ (ofDominators t).contains 3 = t.isReachable 3) ∧
    Program.diamond.function 0 = .ok Program.diamondFunction ∧
    ∃ t table, Program.diamondFunction.dominatorTree = .ok t ∧
      Program.diamond.run .standard 0 = .ok table ∧
      Program.diamond.runAlong .standard 0 (ofDominators t).view = .ok table := by
  have inside : Graph.circle.contains 0 := by decide
  obtain ⟨t, _, run, _, _, _, answers, _⟩ := ofDominators_faithful.1 Graph.circle 0 inside
  exact ⟨inside, ⟨t, run, (answers 3).1⟩, Program.diamond_function,
    ofDominators_faithful.2 Program.diamond_built Program.diamond_function .standard⟩

end GrownTree

end ReachingValues
