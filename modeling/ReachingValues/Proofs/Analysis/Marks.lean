import ReachingValues.Proofs.Analysis.Safety
import ReachingValues.Proofs.Marks

/-!
The check of a tree on tables of marks. Each block has a mark that tells whether it was found in the
tree, and a second one that tells whether the entry reaches it; the first kind both finds blocks that
are listed twice and keeps the search finite. No mark is asked for that its table does not have, and
the marked blocks are at any time those that the plain check has struck off.
-/

namespace ReachingValues

namespace TreeCheck

variable {tree : TreeView} {blockCount : Nat} {node : Node} {missing waiting reachable : List Node}

/-- Marks the blocks listed under `node`, each of which has to be new. -/
def markAll (tree : TreeView) (blockCount : Nat) (node : Node) (seen : Array Bool) :
    List Node → Except Error (Array Bool)
  | [] => .ok seen
  | child :: rest =>
    if blockCount ≤ child then .error (.unknownBlock child)
    else if child = node ∨ tree.parent child ≠ some node then
      .error (.invalidTree (.linksDisagree child node (tree.parent child)))
    else do
      if ← (fetch seen child).mapError Error.fault then throw (.invalidTree (.listedTwice child))
      markAll tree blockCount node (← (store seen child true).mapError Error.fault) rest

def unmarked (seen : Array Bool) : Nat := seen.countP (!·)

theorem unmarked_store {seen later : Array Bool} {child : Node} (fresh : fetch seen child = .ok false)
    (run : store seen child true = .ok later) : unmarked later + 1 = unmarked seen := by
  by_cases room : child < seen.size
  case neg => simp [store, room] at run
  have blank : seen[child] = false := Except.ok.inj ((fetch_of_lt room).symm.trans fresh)
  have some : 0 < seen.countP (!·) :=
    Array.countP_pos_iff.mpr ⟨seen[child], Array.getElem_mem room, by simp [blank]⟩
  obtain rfl := Except.ok.inj ((store_of_lt true room).symm.trans run)
  simp only [unmarked, Array.countP_set room, blank, Bool.not_false, Bool.not_true, if_true,
    Bool.false_eq_true, if_false]
  omega

/-- Every child that passes has a new mark. -/
theorem unmarked_markAll {seen later : Array Bool} {children : List Node}
    (run : markAll tree blockCount node seen children = .ok later) :
    unmarked later + children.length = unmarked seen := by
  induction children generalizing seen with
  | nil => rw [← Except.ok.inj run, List.length_nil, Nat.add_zero]
  | cons child rest ih =>
    unfold markAll at run
    split at run
    · cases run
    split at run
    · cases run
    obtain ⟨mark, asked, run⟩ := bind_eq_ok_iff.mp run
    cases mark with
    | true => cases run
    | false =>
      obtain ⟨next, put, tail⟩ := bind_eq_ok_iff.mp run
      have paid := unmarked_store (mapError_eq_ok_iff.mp asked) (mapError_eq_ok_iff.mp put)
      have rest := ih tail
      simp only [List.length_cons]
      omega

/-- Searches the tree below the waiting nodes and returns the marks of the blocks found. -/
def searchMarked (tree : TreeView) (blockCount : Nat) (seen : Array Bool) (waiting : List Node) :
    Except Error (Array Bool) :=
  match waiting with
  | [] => .ok seen
  | node :: rest =>
    match _run : markAll tree blockCount node seen (tree.children node) with
    | .error error => .error error
    | .ok later =>
      searchMarked tree blockCount later (Order.depthFirst.join (tree.children node) rest)
termination_by unmarked seen + waiting.length
decreasing_by
  have paid := unmarked_markAll _run
  simp only [Order.join_length, List.length_cons]
  omega

/-- Marks a block that the entry reaches, which has to be in the tree. -/
def markReached (seen reached : Array Bool) (block : Node) : Except Error (Array Bool) := do
  let reached ← (store reached block true).mapError Error.fault
  if ← (fetch seen block).mapError Error.fault then return reached
  else throw (.invalidTree (.blockMissing block))

/-- A block in the tree has to be one that the entry reaches. -/
def justify (seen reached : Array Bool) (block : Node) : Except Error Unit := do
  let inTree ← (fetch seen block).mapError Error.fault
  let inFlow ← (fetch reached block).mapError Error.fault
  if inTree && !inFlow then throw (.invalidTree (.blockUnreachable block))

/-- Compares the blocks found in the tree with those that the entry reaches. -/
def compareMarked (blockCount : Nat) (seen : Array Bool) (reachable : List Node) :
    Except Error Unit := do
  let reached ← reachable.foldlM (markReached seen) (Array.replicate blockCount false)
  (List.range blockCount).forM (justify seen reached)

theorem markAll_eq (distinct : missing.Nodup) (children : List Node) :
    markAll tree blockCount node (marksWithout blockCount missing) children =
      (strike tree blockCount node missing children).map (marksWithout blockCount) := by
  induction children generalizing missing with
  | nil => rfl
  | cons child rest ih =>
    rw [markAll, strike]
    split
    · rfl
    rename_i inside
    have inside := Nat.not_le.mp inside
    split
    · rfl
    have asked : fetch (marksWithout blockCount missing) child = .ok (!missing.contains child) :=
      fetch_marksOf inside
    rw [asked, store_marksWithout distinct inside, mapError_ok, ok_bind, mapError_ok, ok_bind]
    by_cases fresh : child ∈ missing
    · rw [if_neg (by simpa using fresh), if_pos fresh]
      exact ih (distinct.erase child)
    · rw [if_pos (by simpa using fresh), if_neg fresh]
      rfl

theorem searchMarked_eq (distinct : missing.Nodup) :
    searchMarked tree blockCount (marksWithout blockCount missing) waiting =
      (search tree blockCount missing waiting).map (marksWithout blockCount) := by
  induction missing, waiting using search.induct tree blockCount with
  | case1 missing => rw [searchMarked, search]; rfl
  | case2 missing node rest error failed =>
    have marked : markAll tree blockCount node (marksWithout blockCount missing)
        (tree.children node) = .error error := by rw [markAll_eq distinct, failed]; rfl
    rw [searchMarked, search]
    split <;> split <;> simp_all [Except.map]
  | case3 missing node rest left passed ih =>
    have marked : markAll tree blockCount node (marksWithout blockCount missing)
        (tree.children node) = .ok (marksWithout blockCount left) := by
      rw [markAll_eq distinct, passed]; rfl
    have onward := ih (strike_passed distinct passed).1
    rw [searchMarked, search]
    split <;> split <;> simp_all

/-- A block that the entry reaches is marked before it is looked for in the tree. -/
theorem foldlM_markReached {holds : Node → Bool} (inside : ∀ b ∈ reachable, b < blockCount)
    (before : List Node) :
    reachable.foldlM (markReached (marksOf blockCount holds)) (marksOf blockCount before.contains) =
      match reachable.find? (!holds ·) with
      | some block => .error (.invalidTree (.blockMissing block))
      | none => .ok (marksOf blockCount (reachable.reverse ++ before).contains) := by
  induction reachable generalizing before with
  | nil => rfl
  | cons block rest ih =>
    obtain ⟨below, inside⟩ := List.forall_mem_cons.mp inside
    rw [List.foldlM_cons, markReached, store_marksOf below, fetch_marksOf below, List.find?_cons]
    cases holds block with
    | false => rfl
    | true =>
      rw [List.reverse_cons, List.append_assoc, List.singleton_append]
      exact ih inside (block :: before)

theorem forM_justify {holds reached : Node → Bool} {blocks : List Node}
    (inside : ∀ b ∈ blocks, b < blockCount) :
    blocks.forM (justify (marksOf blockCount holds) (marksOf blockCount reached)) =
      match blocks.find? fun b => holds b && !reached b with
      | some block => .error (.invalidTree (.blockUnreachable block))
      | none => .ok () := by
  induction blocks with
  | nil => rfl
  | cons block rest ih =>
    obtain ⟨below, inside⟩ := List.forall_mem_cons.mp inside
    rw [List.forM, justify, fetch_marksOf below, fetch_marksOf below, List.find?_cons]
    simp only [mapError_ok, ok_bind]
    cases holds block && !reached block with
    | false => exact ih inside
    | true => rfl

theorem compareMarked_eq (inside : ∀ b ∈ reachable, b < blockCount) :
    compareMarked blockCount (marksWithout blockCount missing) reachable =
      compare blockCount missing reachable := by
  have blank : Array.replicate blockCount false = marksOf blockCount ([] : List Node).contains :=
    replicate_false_eq
  rw [compareMarked, blank, marksWithout, foldlM_markReached inside, compare]
  simp only [Bool.not_not, List.append_nil]
  cases reachable.find? (missing.contains ·) with
  | some block => rfl
  | none =>
    have reached : marksOf blockCount reachable.reverse.contains =
        marksOf blockCount reachable.contains := marksOf_congr fun b _ => List.contains_reverse
    rw [ok_bind, reached]
    exact forM_justify fun b => List.mem_range.mp

end TreeCheck

/-- Checks a tree like `checkTree`, with tables of marks. -/
def Function.checkTreeMarked (f : Function) (tree : TreeView) : Except Error Unit := do
  if tree.root ≠ f.entry then throw (.rootMismatch f.entry tree.root)
  if (tree.parent tree.root).isSome then throw (.invalidTree (.rootHasParent tree.root))
  let seen ← (store (Array.replicate f.blockCount false) tree.root true).mapError Error.fault
  let seen ← TreeCheck.searchMarked tree f.blockCount seen [tree.root]
  let reachable ← (f.flow.depthFirstInRange f.entry).mapError Error.fault
  TreeCheck.compareMarked f.blockCount seen reachable

/-- A function that has a block has a mark for its entry, and so for every block that is marked. -/
theorem Function.checkTreeMarked_eq {f : Function} (nonempty : 0 < f.blockCount)
    (tree : TreeView) : f.checkTreeMarked tree = f.checkTree tree := by
  unfold checkTreeMarked
  by_cases root : tree.root = f.entry
  case neg =>
    rw [if_pos root, checkTree_of_misrooted root]
    rfl
  by_cases top : tree.parent tree.root = none
  case neg =>
    rw [if_neg (not_not_intro root), if_pos (Option.isSome_iff_ne_none.mpr top),
      checkTree_of_rootBelow root top]
    rfl
  have inside : tree.root < f.blockCount := by rw [root]; exact nonempty
  have first : store (Array.replicate f.blockCount false) tree.root true =
      .ok (marksWithout f.blockCount ((List.range f.blockCount).erase tree.root)) :=
    store_replicate_false inside
  have reached : ∀ b ∈ f.reachableBlocks, b < f.blockCount := fun b member =>
    Graph.contains_iff.mp (Graph.mem_depthFirst_iff.mp member).contains.2
  have distinct : ((List.range f.blockCount).erase tree.root).Nodup := List.nodup_range.erase _
  rw [if_neg (not_not_intro root), if_neg (by simp [top]), checkTree_eq root top, first, mapError_ok,
    ok_bind, TreeCheck.searchMarked_eq distinct, Graph.depthFirstInRange_eq, mapError_ok]
  cases TreeCheck.search tree f.blockCount ((List.range f.blockCount).erase tree.root)
      [tree.root] with
  | error error => rfl
  | ok missing => exact TreeCheck.compareMarked_eq reached

end ReachingValues
