import ReachingValues.Analysis.Run
import ReachingValues.Proofs.Analysis.TreeCheck

/-!
The analysis knows a tree by its answers only: which node is the root, which nodes are listed below
a node, and which node is above it. Two views that give the same answers are walked, checked and
analysed alike.
-/

namespace ReachingValues

/-- Two views give the same answers. -/
structure TreeView.Alike (t u : TreeView) : Prop where
  root_eq : t.root = u.root
  children_eq : ∀ n, t.children n = u.children n
  parent_eq : ∀ n, t.parent n = u.parent n

namespace TreeView.Alike

variable {t u : TreeView} (alike : t.Alike u)

include alike

theorem walkFrom_eq (order : Order) (visited waiting : List Node) :
    t.walkFrom order visited waiting = u.walkFrom order visited waiting := by
  induction visited, waiting using walkFrom.induct t order with
  | case1 visited => rw [walkFrom, walkFrom]
  | case2 visited top rest old ih =>
    rw [walkFrom, if_pos old, ih, walkFrom, if_pos old]
  | case3 visited top rest fresh ih =>
    rw [walkFrom, if_neg fresh, ih, walkFrom, if_neg fresh, alike.children_eq]

theorem walk_eq (order : Order) : t.walk order = u.walk order := by
  rw [walk, walk, alike.walkFrom_eq, alike.root_eq]

theorem strike_eq (blockCount : Nat) (node : Node) (missing children : List Node) :
    TreeCheck.strike t blockCount node missing children =
      TreeCheck.strike u blockCount node missing children := by
  induction children generalizing missing with
  | nil => rfl
  | cons child rest ih => simp only [TreeCheck.strike, alike.parent_eq, ih]

theorem search_eq (blockCount : Nat) (missing waiting : List Node) :
    TreeCheck.search t blockCount missing waiting =
      TreeCheck.search u blockCount missing waiting := by
  induction missing, waiting using TreeCheck.search.induct t blockCount with
  | case1 missing => rw [TreeCheck.search, TreeCheck.search]
  | case2 missing node rest error refused =>
    rw [TreeCheck.search_cons, TreeCheck.search_cons, ← alike.children_eq, ← alike.strike_eq,
      refused]
    rfl
  | case3 missing node rest left passed ih =>
    rw [TreeCheck.search_cons, TreeCheck.search_cons, ← alike.children_eq, ← alike.strike_eq,
      passed, ok_bind, ok_bind, ih]

theorem checkTree_eq (f : Function) : f.checkTree t = f.checkTree u := by
  simp only [Function.checkTree, alike.root_eq, alike.parent_eq, alike.search_eq]

theorem visit_eq (d : Definitions) (capacity : Nat) :
    d.visit t capacity = d.visit u capacity := by
  funext sets n
  rw [Definitions.visit, Definitions.visit, alike.children_eq]

theorem propagate_eq (d : Definitions) (seed : ValueSet) (order : Order) :
    d.propagate t seed order = d.propagate u seed order := by
  simp only [Definitions.propagate, Definitions.seeded, alike.walk_eq, alike.visit_eq,
    alike.root_eq]

theorem reachAlong_eq (p : Program) (settings : Settings) (f : Function) :
    p.reachAlong settings f t = p.reachAlong settings f u := by
  simp only [Program.reachAlong, alike.checkTree_eq, alike.propagate_eq]

end TreeView.Alike

end ReachingValues
