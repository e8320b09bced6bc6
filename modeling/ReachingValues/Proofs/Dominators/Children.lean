import ReachingValues.Proofs.Dominators.Tree
import ReachingValues.Proofs.Tree.Shape

/-!
The links downwards are the links upwards read backwards. As every reached node but the entry has
one immediate dominator, they form a tree, and the ancestors of a node there are its dominators.
-/

namespace ReachingValues

section ChildLists

variable {links : Array (Option Node)} {p : Node}

theorem size_childLists : (childLists links).size = links.size := by
  unfold childLists
  generalize List.range links.size = children
  induction children with
  | nil => exact Array.size_replicate
  | cons child rest ih =>
    rw [List.foldr_cons]
    split
    · rw [Array.size_modify, ih]
    · exact ih

theorem getElem?_childLists (inside : p < links.size) :
    (childLists links)[p]? =
      some ((List.range links.size).filter fun c => links[c]?.getD none == some p) := by
  unfold childLists
  generalize List.range links.size = children
  induction children with
  | nil => simp [inside]
  | cons child rest ih =>
    rw [List.foldr_cons, List.filter_cons]
    split
    · rename_i above link
      rw [Array.getElem?_modify, ih, link]
      by_cases same : above = p <;> simp [same]
    · rename_i unlinked
      rw [ih, if_neg]
      intro test
      cases known : links[child]? with
      | none => simp [known] at test
      | some link =>
        refine unlinked p (known.trans (congrArg some ?_))
        simpa [known] using test

end ChildLists

namespace DominatorTree

variable {α : Type} {g : Graph α} {t : DominatorTree} {entry a c n p : Node}

theorem childrenOf_eq (inside : p < t.nodeCount) :
    t.childrenOf p = (List.range t.nodeCount).filter (t.immediateDominator · == some p) := by
  rw [childrenOf, t.children_eq, getElem?_childLists inside]
  rfl

theorem mem_childrenOf_iff :
    c ∈ t.childrenOf p ↔ p < t.nodeCount ∧ t.immediateDominator c = some p := by
  by_cases inside : p < t.nodeCount
  · rw [childrenOf_eq inside, List.mem_filter, List.mem_range, beq_iff_eq]
    refine ⟨fun known => ⟨inside, known.2⟩, fun known => ⟨?_, known.2⟩⟩
    refine Nat.lt_of_not_le fun outside => ?_
    have none : t.immediateDominator c = none := by
      rw [immediateDominator, Array.getElem?_eq_none outside]
      rfl
    exact Option.some_ne_none p (known.2.symm.trans none)
  · have none : t.children[p]? = none := by
      rw [t.children_eq, Array.getElem?_eq_none (size_childLists ▸ Nat.not_lt.mp inside)]
    simp [childrenOf, none, inside]

theorem childrenOf_ascending : (t.childrenOf p).Pairwise (· < ·) := by
  by_cases inside : p < t.nodeCount
  · rw [childrenOf_eq inside]
    exact List.pairwise_lt_range.filter _
  · have none : t.childrenOf p = [] :=
      List.eq_nil_iff_forall_not_mem.mpr fun c member => inside (mem_childrenOf_iff.mp member).1
    rw [none]
    exact .nil

namespace Faithful

variable (faithful : t.Faithful g entry)

include faithful

theorem mem_children_iff : c ∈ t.view.children p ↔ g.ImmediatelyDominates entry p c := by
  rw [← faithful.immediateDominator_iff]
  refine mem_childrenOf_iff.trans ⟨And.right, fun link => ⟨?_, link⟩⟩
  rw [faithful.nodeCount_eq]
  have immediate := (faithful.immediateDominator_iff c p).mp link
  exact Graph.contains_iff.mp immediate.strict.2.reaches.contains.2

theorem view_shaped : t.view.Shaped where
  root_unlisted _ _ listed :=
    (faithful.mem_children_iff.mp listed).strict.ne_entry faithful.entry_eq
  lister_unique _ _ _ _ _ one other :=
    (faithful.mem_children_iff.mp one).unique (faithful.mem_children_iff.mp other)
  children_nodup _ _ := childrenOf_ascending.imp Nat.ne_of_lt

/-- The nodes that lead to a reached node are its dominators. -/
theorem leads_iff (reach : g.Reaches entry n) : t.view.Leads a n ↔ g.Dominates entry a n := by
  constructor
  · intro leads
    induction leads with
    | here => exact .refl reach
    | down listed _ ih => exact (faithful.mem_children_iff.mp listed).strict.2.trans (ih reach)
  · refine Graph.Reaches.dominator_induct reach ?_ ?_
    · intro upper
      have inside := upper.1.contains.1
      exact List.mem_singleton.mp (upper.2 _ (.here inside)) ▸ .here
    · intro d c immediate leads upper
      by_cases same : a = c
      · exact same ▸ .here
      · have above := immediate.strictlyDominates_iff.mp ⟨same, upper⟩
        exact (leads above).concat (faithful.mem_children_iff.mpr immediate)

theorem reaches_of_leads (reach : g.Reaches entry a) (leads : t.view.Leads a n) :
    g.Reaches entry n :=
  leads.induct (fun _ _ _ listed => (faithful.mem_children_iff.mp listed).strict.2.1) reach

theorem leads_root_iff (inside : g.contains entry) :
    t.view.Leads t.view.root n ↔ g.Reaches entry n := by
  have root : t.view.root = entry := faithful.entry_eq
  rw [root]
  refine ⟨faithful.reaches_of_leads (.refl inside), fun reach => ?_⟩
  exact (faithful.leads_iff reach).mpr ⟨reach, fun _ path => path.source_mem⟩

theorem properAncestor_iff (inside : g.contains entry) :
    t.view.ProperAncestor a n ↔ g.StrictlyDominates entry a n := by
  constructor
  · rintro ⟨_, c, listed, leads⟩
    have strict := (faithful.mem_children_iff.mp listed).strict
    have reach := faithful.reaches_of_leads strict.2.1 leads
    have lower := (faithful.leads_iff reach).mp leads
    refine ⟨?_, strict.2.trans lower⟩
    rintro rfl
    exact strict.1 (strict.2.antisymm lower)
  · intro strict
    have reach := strict.2.1
    refine ⟨(faithful.leads_root_iff inside).mpr strict.2.reaches, ?_⟩
    cases (faithful.leads_iff reach).mpr strict.2 with
    | here => exact absurd rfl strict.1
    | down listed rest => exact ⟨_, listed, rest⟩

end Faithful

end DominatorTree

end ReachingValues
