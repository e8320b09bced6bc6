import ReachingValues.Proofs.Analysis.Marks
import ReachingValues.Proofs.Analysis.SuppliedTree

/-!
What the check of a tree says. It lets a tree pass just when the tree spans the blocks that the
entry reaches, and whatever it answers otherwise is so: the error names something that really is
wrong with the tree. The search stops at the first child that does not fit, and until then it has
struck off only children that name their lister as their parent. A block struck off before by some
other node would name that one; so a block found twice stands twice in one list.
-/

namespace ReachingValues

/-- What is wrong with a tree, for each error that the check of a tree can end in. -/
inductive Function.Objection (f : Function) (tree : TreeView) : Error → Prop where
  | misrooted : tree.root ≠ f.entry → Objection f tree (.rootMismatch f.entry tree.root)
  | rootBelow : tree.parent tree.root ≠ none →
      Objection f tree (.invalidTree (.rootHasParent tree.root))
  | foreign {n c : Node} : tree.Leads tree.root n → c ∈ tree.children n → f.blockCount ≤ c →
      Objection f tree (.unknownBlock c)
  | disagreeing {n c : Node} : tree.Leads tree.root n → c ∈ tree.children n →
      c = n ∨ tree.parent c ≠ some n →
      Objection f tree (.invalidTree (.linksDisagree c n (tree.parent c)))
  | repeated {n c : Node} : tree.Leads tree.root n → [c, c].Sublist (tree.children n) →
      Objection f tree (.invalidTree (.listedTwice c))
  | missing {b : Node} : f.flow.Reaches f.entry b → ¬ tree.Leads tree.root b →
      Objection f tree (.invalidTree (.blockMissing b))
  | unreachable {b : Node} : tree.Leads tree.root b → ¬ f.flow.Reaches f.entry b →
      Objection f tree (.invalidTree (.blockUnreachable b))

namespace TreeCheck

variable {f : Function} {tree : TreeView} {error : Error} {node : Node}
  {missing waiting done : List Node}

/-- The children in `front` have passed, and no other block that calls the node its parent has been
struck off. -/
theorem objection_of_strike {front rest : List Node} (atNode : tree.Leads tree.root node)
    (split : tree.children node = front ++ rest)
    (struck : ∀ c < f.blockCount, tree.parent c = some node → c ∉ missing → c ∈ front)
    (failed : strike tree f.blockCount node missing rest = .error error) :
    f.Objection tree error := by
  induction rest generalizing front missing with
  | nil => cases failed
  | cons child rest ih =>
    have listed : child ∈ tree.children node := by simp [split]
    unfold strike at failed
    split at failed
    · rename_i outside
      obtain rfl := Except.error.inj failed
      exact .foreign atNode listed outside
    rename_i inside
    split at failed
    · rename_i disagree
      obtain rfl := Except.error.inj failed
      exact .disagreeing atNode listed disagree
    rename_i agree
    simp only [not_or, ne_eq, Decidable.not_not] at agree
    split at failed
    · have onward : tree.children node = (front ++ [child]) ++ rest := by simp [split]
      refine ih onward (fun c below parent absent => ?_) failed
      by_cases same : c = child
      · simp [same]
      · have before : c ∉ missing := fun old => absent ((List.mem_erase_of_ne same).mpr old)
        exact List.mem_append_left _ (struck c below parent before)
    · rename_i absent
      obtain rfl := Except.error.inj failed
      have early := struck child (Nat.not_le.mp inside) agree.2 absent
      have twice : [child, child].Sublist (front ++ child :: rest) :=
        (List.singleton_sublist.mpr early).append (List.singleton_sublist.mpr List.mem_cons_self)
      exact .repeated atNode (split ▸ twice)

theorem Searched.objection
    (stuck : Searched tree f.blockCount done missing (node :: waiting))
    (top : tree.parent tree.root = none)
    (failed : strike tree f.blockCount node missing (tree.children node) = .error error) :
    f.Objection tree error := by
  have whole : tree.children node = [] ++ tree.children node := rfl
  refine objection_of_strike (stuck.led node (by simp)) whole ?_ failed
  intro c below parent absent
  have notRoot : c ≠ tree.root := fun same => by simp [← same, parent] at top
  obtain ⟨p, visited, listed⟩ : ∃ p ∈ done, c ∈ tree.children p := by
    simpa [stuck.missing_iff, below, notRoot] using absent
  -- the block calls the node its parent, which has not been visited yet
  have above := ((stuck.passed p visited).2 c listed).2.2
  obtain rfl := Option.some.inj (above.symm.trans parent)
  exact absurd (List.mem_append_right waiting visited) (List.nodup_cons.mp stuck.once).1

theorem objection_of_compare
    (missing_iff : ∀ b, b ∈ missing ↔ b < f.blockCount ∧ ¬ tree.Leads tree.root b)
    (failed : compare f.blockCount missing f.reachableBlocks = .error error) :
    f.Objection tree error := by
  unfold compare at failed
  split at failed
  · rename_i block found
    obtain rfl := Except.error.inj failed
    have reached := Graph.mem_depthFirst_iff.mp (List.mem_of_find?_eq_some found)
    have absent : block ∈ missing := by simpa using List.find?_some found
    exact .missing reached ((missing_iff block).mp absent).2
  split at failed
  · rename_i block found
    obtain rfl := Except.error.inj failed
    have inside := List.mem_range.mp (List.mem_of_find?_eq_some found)
    have neither := List.find?_some found
    simp only [Bool.and_eq_true, Bool.not_eq_true', List.contains_eq_mem, decide_eq_false_iff_not]
      at neither
    have leads : tree.Leads tree.root block := Classical.byContradiction fun outside =>
      neither.1 ((missing_iff block).mpr ⟨inside, outside⟩)
    exact .unreachable leads fun reach => neither.2 (Graph.mem_depthFirst_iff.mpr reach)
  · cases failed

end TreeCheck

namespace Function

variable {f : Function} {tree : TreeView} {error : Error}

/-- The error in which the check ends says something true of the tree. -/
theorem objection_of_checkTree (failed : f.checkTree tree = .error error) :
    f.Objection tree error := by
  by_cases root : tree.root = f.entry
  case neg =>
    obtain rfl := Except.error.inj ((checkTree_of_misrooted root).symm.trans failed)
    exact .misrooted root
  by_cases top : tree.parent tree.root = none
  case neg =>
    obtain rfl := Except.error.inj ((checkTree_of_rootBelow root top).symm.trans failed)
    exact .rootBelow top
  rw [checkTree_eq root top] at failed
  rcases TreeCheck.Searched.start.ends with
    ⟨left, _, run, ended⟩ | ⟨_, _, _, _, _, run, stuck, struck⟩
  · rw [run, ok_bind] at failed
    exact TreeCheck.objection_of_compare ended.missing_iff_not_leads failed
  · rw [run, error_bind] at failed
    obtain rfl := Except.error.inj failed
    exact stuck.objection top struck

end Function

namespace Program

variable {p : Program} {f : Function} {k : FunctionId}

/-- The check of a tree never asks for a mark that it does not have, and it passes just the trees that
span what the entry reaches. A wrong root is reported whenever there is one; an unknown block only if
the tree lists it. -/
theorem checkTree_accepts_spanning (built : p.Built) (known : p.function k = .ok f)
    (tree : TreeView) :
    f.checkTreeMarked tree = f.checkTree tree ∧
    (∀ fault, f.checkTree tree ≠ .error (.fault fault)) ∧
    (f.checkTree tree = .ok () ↔
      tree.root = 0 ∧ tree.parent tree.root = none ∧
      (∀ n c, tree.Leads tree.root n → c ∈ tree.children n →
        c < f.blockCount ∧ c ≠ n ∧ tree.parent c = some n) ∧
      (∀ n, tree.Leads tree.root n → (tree.children n).Nodup) ∧
      (∀ n m c, tree.Leads tree.root n → tree.Leads tree.root m →
        c ∈ tree.children n → c ∈ tree.children m → n = m) ∧
      ∀ b, tree.Leads tree.root b ↔ f.flow.Reaches 0 b) ∧
    (∀ expected found, f.checkTree tree = .error (.rootMismatch expected found) ↔
      tree.root ≠ 0 ∧ expected = 0 ∧ found = tree.root) ∧
    ∀ c, f.checkTree tree = .error (.unknownBlock c) →
      f.blockCount ≤ c ∧ ∃ n, tree.Leads tree.root n ∧ c ∈ tree.children n := by
  have nonempty := (built.wellFormed.functions k f (function_eq_ok.mp known)).2.1
  refine ⟨Function.checkTreeMarked_eq nonempty tree, fun fault failed => ?_, ⟨fun passed => ?_, ?_⟩,
    fun expected found => ⟨fun failed => ?_, ?_⟩, fun c failed => ?_⟩
  · cases Function.objection_of_checkTree failed
  · have spanned := Function.checkTree_eq_ok_iff.mp passed
    exact ⟨spanned.root_eq, spanned.root_parent, spanned.agrees.listed,
      spanned.agrees.children_nodup, spanned.agrees.lister_unique,
      fun b => spanned.leads_iff_reaches nonempty⟩
  · rintro ⟨root, top, listed, once, _, spans⟩
    have agrees := TreeView.agrees_of_listed top fun n leads =>
      ⟨once n leads, fun c => listed n c leads⟩
    exact Function.checkTree_ok root top agrees fun b _ =>
      (spans b).trans Graph.mem_depthFirst_iff.symm
  · cases Function.objection_of_checkTree failed with
    | misrooted other => exact ⟨other, rfl, rfl⟩
  · rintro ⟨other, rfl, rfl⟩
    exact Function.checkTree_of_misrooted other
  · cases Function.objection_of_checkTree failed with
    | foreign leads listed outside => exact ⟨outside, _, leads, listed⟩

/-- The computed tree of `diamond` with a block below the join that the function does not have. -/
def overgrown : LinkTable := ⟨0, [(0, [1, 2, 3]), (3, [9])], [(1, 0), (2, 0), (3, 0), (9, 3)]⟩

/-- The lopsided tree passes, and so it leads to just what the entry reaches. -/
theorem checkTree_accepts_spanning_diamond :
    (∀ b, lopsided.view.Leads 0 b ↔ diamondFunction.flow.Reaches 0 b) ∧
    (∃ n, overgrown.view.Leads 0 n ∧ 9 ∈ overgrown.view.children n) ∧
    diamondFunction.checkTree (LinkTable.mk 1 [] []).view = .error (.rootMismatch 0 1) := by
  have fits : diamondFunction.checkTree lopsided.view = .ok () := by with_unfolding_all rfl
  have foreign : diamondFunction.checkTree overgrown.view = .error (.unknownBlock 9) := by
    with_unfolding_all rfl
  obtain ⟨_, _, accepts, _⟩ :=
    checkTree_accepts_spanning diamond_built diamond_function lopsided.view
  obtain ⟨_, _, _, _, unknown⟩ :=
    checkTree_accepts_spanning diamond_built diamond_function overgrown.view
  obtain ⟨_, _, _, misrooted, _⟩ :=
    checkTree_accepts_spanning diamond_built diamond_function (LinkTable.mk 1 [] []).view
  exact ⟨(accepts.mp fits).2.2.2.2.2, (unknown 9 foreign).2,
    (misrooted 0 1).mpr ⟨by decide, rfl, rfl⟩⟩

end Program

end ReachingValues
