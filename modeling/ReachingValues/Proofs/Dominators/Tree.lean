import ReachingValues.Dominators.Tree
import ReachingValues.Proofs.Dominators.Handling

/-!
The computed links are the immediate dominators. When all nodes are handled nobody waits any more,
and the last pass settles the answers in ascending order, so the node that shares its dominator with
a later one is settled before it.
-/

namespace ReachingValues

open SpanningTree

variable {α : Type} {g : Graph α} {entry : Node} {tree : SpanningTree}

theorem SpanningTree.Genuine.number_of_split (genuine : tree.Genuine g entry) {n : Node}
    {front back : List Node} (split : tree.belowEntry = front ++ n :: back) :
    tree.numberOf n = front.length + 2 ∧ tree.order.size = front.length + back.length + 2 := by
  unfold belowEntry at split
  cases order : tree.order.toList with
  | nil => simp [order] at split
  | cons first rest =>
    rw [order, List.tail_cons] at split
    have atN : tree.order[front.length + 1]? = some n := by
      rw [← Array.getElem?_toList, order, List.getElem?_cons_succ, split]
      simp
    have total : tree.order.size = (first :: rest).length := by rw [← order, Array.length_toList]
    refine ⟨(genuine.number_iff n _).mpr atN, ?_⟩
    rw [total, split]
    simp only [List.length_cons, List.length_append]
    omega

namespace Semidominators

variable {s : Semidominators} {n d : Node}

theorem handled_initial (genuine : tree.Genuine g entry) :
    (initial g.nodeCount).Handled g tree tree.order.size := by
  have semis : ∀ n, (initial g.nodeCount).semiOf n = n := fun n => by
    simp only [semiOf, initial, Array.getElem?_range]
    split <;> rfl
  have waits : ∀ n, (initial g.nodeCount).waitingAt n = [] := fun n => by
    simp only [waitingAt, initial, Array.getElem?_replicate]
    split <;> rfl
  have dominators : ∀ n, (initial g.nodeCount).dominatorOf n = none := fun n => by
    simp only [dominatorOf, initial, Array.getElem?_replicate]
    split <;> rfl
  have none : ∀ n, ¬ tree.order.size < tree.numberOf n := fun n =>
    Nat.not_lt.mpr (genuine.number_le_size n)
  constructor
  · constructor
    · refine ⟨Array.size_range, Array.size_replicate, Array.size_replicate, fun n inside => ?_, ?_⟩
      · rwa [semis]
      · rw [genuine.upBeyond_size]
        exact Forest.compresses_singletons _ _
    · exact fun n beyond => absurd beyond (none n)
    · exact fun n _ => semis n
    · intro n v member
      rw [waits] at member
      cases member
    · exact fun n beyond => absurd beyond (none n)
    · exact fun n _ => dominators n
  · exact fun w p v beyond => absurd beyond (none w)

/-- In the end all nodes below the entry are handled. -/
theorem ofTree_handled (spans : tree.Spans g entry) (inside : g.contains entry) :
    ∃ s, ofTree g tree = .ok s ∧ s.Handled g tree 1 := by
  have genuine := spans.toGenuine
  have nonempty : 0 < tree.order.size :=
    Nat.lt_of_lt_of_le ((spans.numbered_iff entry).mpr (.refl inside)) (genuine.number_le_size _)
  obtain ⟨s, run, handled⟩ := foldlM_ok (handle g tree) tree.belowEntry.reverse _
    (fun seen s => s.Handled g tree (tree.order.size - seen.length)) (handled_initial genuine) (by
      intro seen n rest s split handled
      have turned : tree.belowEntry = rest.reverse ++ n :: seen.reverse := by
        simpa using congrArg List.reverse split
      obtain ⟨number, total⟩ := genuine.number_of_split turned
      simp only [List.length_reverse] at number total
      have limit : tree.order.size - seen.length = rest.length + 1 + 1 := by omega
      rw [limit] at handled
      obtain ⟨s', run, again⟩ := handled.handle genuine number (Nat.succ_pos _)
      refine ⟨s', run, ?_⟩
      have next : tree.order.size - (seen ++ [n]).length = rest.length + 1 := by
        rw [List.length_append, List.length_singleton]
        omega
      rwa [next])
  refine ⟨s, run, ?_⟩
  have count : tree.order.size - tree.belowEntry.reverse.length = 1 := by
    simp only [belowEntry, List.length_reverse, List.length_tail, Array.length_toList]
    omega
  rwa [count] at handled

/-- Nobody waits in the end: the child through which a waiting node is reached has been handled. -/
theorem Handled.not_waiting (handled : s.Handled g tree 1) (genuine : tree.Genuine g entry) :
    n ∉ s.waitingAt d := by
  intro waiting
  obtain ⟨below, rfl⟩ := handled.waits_at_semi d n waiting
  have semi := handled.done n below
  obtain ⟨c, childOf, above⟩ := (semi.above genuine below).child (semi.ne genuine below)
  have parent := genuine.parent_spec childOf
  have late := handled.released c _ n (by omega) childOf waiting
  have bound := genuine.number_le above
  omega

theorem Handled.answer (handled : s.Handled g tree 1) (genuine : tree.Genuine g entry)
    (below : 1 < tree.numberOf n) :
    ∃ d, s.dominatorOf n = some d ∧ Answers s.semiOf g tree n d :=
  (handled.answered n below).resolve_left (handled.not_waiting genuine)

theorem Answers.immediatelyDominates (answers : Answers s.semiOf g tree n d)
    (spans : tree.Spans g entry) (semi : tree.Semidominates g (s.semiOf n) n)
    (below : 1 < tree.numberOf n) (direct : d = s.semiOf n) :
    g.ImmediatelyDominates entry d n := by
  rcases answers with ⟨_, clear⟩ | ⟨other, _⟩
  · exact direct ▸ semi.immediatelyDominates spans below clear
  · exact absurd direct other

/-- An answer that is not the semidominator has a lower number and the same immediate dominator. -/
theorem Answers.shares (answers : Answers s.semiOf g tree n d) (spans : tree.Spans g entry)
    (semi : tree.Semidominates g (s.semiOf n) n) (below : 1 < tree.numberOf n)
    (other : d ≠ s.semiOf n) :
    1 < tree.numberOf d ∧ tree.numberOf d < tree.numberOf n ∧
      ∀ e, g.ImmediatelyDominates entry e d → g.ImmediatelyDominates entry e n := by
  rcases answers with ⟨direct, _⟩ | ⟨_, different, upper, lower, lowest, clear⟩
  · exact absurd direct other
  · have numbered := semi.numbered
    have less := spans.number_lt lower (by omega) different
    have atD := spans.numbered_of_above lower (by omega)
    have more := spans.number_lt upper atD (Ne.symm other)
    refine ⟨by omega, less, fun e immediate => ?_⟩
    exact semi.immediatelyDominates_of_lowest spans below upper other lower lowest clear immediate

/-- The links after the nodes numbered below the bound are settled. -/
structure Settled (links : Array (Option Node)) (s : Semidominators) (g : Graph α) (entry : Node)
    (tree : SpanningTree) (bound : Nat) : Prop where
  size_eq : links.size = g.nodeCount
  unlinked : ∀ n, tree.numberOf n ≤ 1 → links[n]?.getD none = none
  linked : ∀ n, 1 < tree.numberOf n → tree.numberOf n < bound →
    ∃ d, links[n]?.getD none = some d ∧ g.ImmediatelyDominates entry d n
  open_eq : ∀ n, bound ≤ tree.numberOf n → links[n]?.getD none = s.dominatorOf n

theorem Settled.settle {links : Array (Option Node)} {bound : Nat}
    (settled : Settled links s g entry tree bound) (handled : s.Handled g tree 1)
    (spans : tree.Spans g entry) (number : tree.numberOf n = bound) (below : 1 < bound) :
    ∃ later, settle s.semi links n = .ok later ∧ Settled later s g entry tree (bound + 1) := by
  have inside := spans.lt_nodeCount (n := n) (by omega)
  have room : n < links.size := by rw [settled.size_eq]; exact inside
  obtain ⟨d, dominator, answers⟩ := handled.answer spans.toGenuine (n := n) (by omega)
  have semi := handled.done n (by omega)
  have atN : fetch links n = .ok (some d) := by
    rw [fetch_eq room none, settled.open_eq n (Nat.le_of_eq number.symm), dominator]
  rw [Semidominators.settle, atN, ok_bind]
  simp only [handled.fetch_semi inside, ok_bind]
  by_cases direct : d = s.semiOf n
  · refine ⟨links, if_pos direct, settled.size_eq, settled.unlinked, fun m more less => ?_,
      fun m more => settled.open_eq m (by omega)⟩
    by_cases same : tree.numberOf m = bound
    · have equal : m = n := spans.eq_of_number_eq (by omega) (same.trans number.symm)
      subst equal
      refine ⟨d, ?_, answers.immediatelyDominates spans semi (by omega) direct⟩
      rw [settled.open_eq m (Nat.le_of_eq same.symm), dominator]
    · exact settled.linked m more (by omega)
  · obtain ⟨belowD, lessD, shares⟩ := answers.shares spans semi (by omega) direct
    obtain ⟨e, link, immediate⟩ := settled.linked d belowD (by omega)
    have roomD : d < links.size := by
      rw [settled.size_eq]
      exact spans.lt_nodeCount (by omega)
    have atD : fetch links d = .ok (some e) := link ▸ fetch_eq roomD none
    have links' := fun m => getD_setIfInBounds room m (some e) none
    refine ⟨links.setIfInBounds n (some e), ?_, ?_, fun m small => ?_, fun m more less => ?_,
      fun m more => ?_⟩
    · rw [if_neg direct, atD, ok_bind, store_eq room]
    · rw [Array.size_setIfInBounds, settled.size_eq]
    · rw [links', if_neg (by rintro rfl; omega)]
      exact settled.unlinked m small
    · rw [links']
      by_cases same : m = n
      · subst same
        exact ⟨e, if_pos rfl, shares e immediate⟩
      · have unequal : tree.numberOf m ≠ bound := fun equal =>
          same (spans.eq_of_number_eq (by omega) (equal.trans number.symm))
        rw [if_neg same]
        exact settled.linked m more (by omega)
    · rw [links', if_neg (by rintro rfl; omega)]
      exact settled.open_eq m (by omega)

theorem Handled.unsettled (handled : s.Handled g tree 1) :
    Settled s.dominator s g entry tree 2 :=
  ⟨handled.dominator_size, handled.unanswered, fun n more less => by omega, fun _ _ => rfl⟩

/-- After the last pass a node is linked to its immediate dominator. -/
theorem Handled.settled (handled : s.Handled g tree 1) (spans : tree.Spans g entry) :
    ∃ links, settled tree s = .ok links ∧ links.size = g.nodeCount ∧
      (∀ n, 1 < tree.numberOf n →
        ∃ d, links[n]?.getD none = some d ∧ g.ImmediatelyDominates entry d n) ∧
      ∀ n, tree.numberOf n ≤ 1 → links[n]?.getD none = none := by
  obtain ⟨links, run, settled⟩ := foldlM_ok (settle s.semi) tree.belowEntry s.dominator
    (fun seen links => Settled links s g entry tree (seen.length + 2)) handled.unsettled (by
      intro seen n rest links split settled
      obtain ⟨number, _⟩ := spans.number_of_split split
      obtain ⟨later, run, again⟩ := settled.settle handled spans number (by omega)
      refine ⟨later, run, ?_⟩
      rw [List.length_append, List.length_singleton]
      exact again)
  refine ⟨links, run, settled.size_eq, fun n more => ?_, settled.unlinked⟩
  refine settled.linked n more ?_
  have bound := spans.number_le_size n
  simp only [belowEntry, List.length_tail, Array.length_toList]
  omega

end Semidominators

/-- What the tree tells is true of the graph. -/
structure DominatorTree.Faithful (t : DominatorTree) (g : Graph α) (entry : Node) : Prop where
  entry_eq : t.entry = entry
  nodeCount_eq : t.nodeCount = g.nodeCount
  immediateDominator_iff :
    ∀ n d, t.immediateDominator n = some d ↔ g.ImmediatelyDominates entry d n
  isReachable_iff : ∀ n, t.isReachable n ↔ g.Reaches entry n

namespace DominatorTree

variable {t : DominatorTree} {n : Node}

/-- It is enough that the right nodes are linked: the links then tell who is reached. -/
theorem faithful_of_links (entryEq : t.entry = entry) (size : t.nodeCount = g.nodeCount)
    (linked : ∀ n, n ≠ entry → g.Reaches entry n →
      ∃ d, t.immediateDominator n = some d ∧ g.ImmediatelyDominates entry d n)
    (unlinked : ∀ n, n = entry ∨ ¬ g.Reaches entry n → t.immediateDominator n = none) :
    t.Faithful g entry := by
  refine ⟨entryEq, size, fun n d => ⟨fun link => ?_, fun immediate => ?_⟩, fun n => ?_⟩
  · by_cases outside : n = entry ∨ ¬ g.Reaches entry n
    · exact absurd ((unlinked n outside).symm.trans link) (by simp)
    · rw [not_or, Classical.not_not] at outside
      obtain ⟨e, other, immediate⟩ := linked n outside.1 outside.2
      exact Option.some.inj (other.symm.trans link) ▸ immediate
  · obtain ⟨e, link, other⟩ := linked n immediate.strict.ne_entry immediate.strict.2.1
    exact link.trans (congrArg some (other.unique immediate))
  · simp only [isReachable, Bool.and_eq_true, decide_eq_true_eq, Bool.or_eq_true, beq_iff_eq,
      entryEq, size]
    constructor
    · rintro ⟨inside, rfl | link⟩
      · exact .refl (Graph.contains_iff.mpr inside)
      · by_cases reach : g.Reaches entry n
        · exact reach
        · rw [unlinked n (Or.inr reach)] at link
          cases link
    · intro reach
      refine ⟨Graph.contains_iff.mp reach.contains.2, ?_⟩
      by_cases same : n = entry
      · exact Or.inl same
      · obtain ⟨d, link, _⟩ := linked n same reach
        exact Or.inr (link ▸ rfl)

theorem Faithful.immediateDominator_eq_none (faithful : t.Faithful g entry)
    (outside : n = entry ∨ ¬ g.Reaches entry n) : t.immediateDominator n = none := by
  cases link : t.immediateDominator n with
  | none => rfl
  | some d =>
    have strict := ((faithful.immediateDominator_iff n d).mp link).strict
    exact outside.elim (fun same => absurd same strict.ne_entry) fun unreached =>
      absurd strict.2.1 unreached

theorem Faithful.exists_immediateDominator (faithful : t.Faithful g entry) (other : n ≠ entry)
    (reach : g.Reaches entry n) :
    ∃ d, t.immediateDominator n = some d ∧ g.ImmediatelyDominates entry d n := by
  have known := (faithful.isReachable_iff n).mpr reach
  simp only [isReachable, faithful.entry_eq, Bool.and_eq_true, Bool.or_eq_true, beq_iff_eq, other,
    false_or] at known
  obtain ⟨d, link⟩ := Option.isSome_iff_exists.mp known.2
  exact ⟨d, link, (faithful.immediateDominator_iff n d).mp link⟩

end DominatorTree

namespace Graph

variable (g entry)

theorem dominatorTree_faithful : ∃ t, g.dominatorTree entry = .ok t ∧ t.Faithful g entry := by
  by_cases inside : g.contains entry
  · obtain ⟨tree, search, spans⟩ := ofGraph_spans inside
    obtain ⟨s, run, handled⟩ := Semidominators.ofTree_handled spans inside
    obtain ⟨links, last, size, linked, unlinked⟩ := handled.settled spans
    refine ⟨⟨entry, links, _, rfl⟩, ?_, DominatorTree.faithful_of_links rfl size ?_ ?_⟩
    · simp only [dominatorTree, inside, if_true, search, run, last, ok_bind, pure_eq_ok]
    · exact fun n other reach => linked n ((spans.below_iff n).mpr ⟨other, reach⟩)
    · intro n outside
      refine unlinked n (Nat.not_lt.mp fun below => ?_)
      have ⟨other, reach⟩ := (spans.below_iff n).mp below
      exact outside.elim other (absurd reach)
  · have unreached : ∀ n, ¬ g.Reaches entry n := fun n reach => inside reach.contains.1
    refine ⟨⟨entry, Array.replicate g.nodeCount none, _, rfl⟩, ?_,
      DominatorTree.faithful_of_links rfl Array.size_replicate ?_ ?_⟩
    · simp only [dominatorTree, inside, Bool.false_eq_true, if_false, pure_eq_ok]
    · exact fun n _ reach => absurd reach (unreached n)
    · intro n _
      simp only [DominatorTree.immediateDominator, Array.getElem?_replicate]
      split <;> rfl

/-- Every reached node but the entry has a lowest strict dominator. -/
theorem exists_immediatelyDominates {g : Graph α} {entry n : Node} (other : n ≠ entry)
    (reach : g.Reaches entry n) : ∃ d, g.ImmediatelyDominates entry d n := by
  obtain ⟨t, _, faithful⟩ := dominatorTree_faithful g entry
  obtain ⟨d, _, immediate⟩ := faithful.exists_immediateDominator other reach
  exact ⟨d, immediate⟩

/-- What holds of the entry, and of a node if it does of its immediate dominator, holds of all reached
nodes, as the immediate dominator can be reached on a shorter path. -/
@[elab_as_elim]
theorem Reaches.dominator_induct {g : Graph α} {entry n : Node} {motive : Node → Prop}
    (reach : g.Reaches entry n) (start : motive entry)
    (below : ∀ d c, g.ImmediatelyDominates entry d c → motive d → motive c) : motive n := by
  obtain ⟨visited, path⟩ := reach
  induction size : visited.length using Nat.strongRecOn generalizing n visited with
  | ind size ih =>
    subst size
    by_cases same : n = entry
    · exact same ▸ start
    · obtain ⟨d, immediate⟩ := exists_immediatelyDominates same path.reaches
      obtain ⟨front, toD, shorter⟩ := immediate.strict.shorter path
      exact below d n immediate (ih front.length shorter front toD rfl)

/-- For every graph and entry there is a tree, and it answers by the paths of the graph. -/
theorem dominatorTree_by_paths : ∃ t, g.dominatorTree entry = .ok t ∧
    (∀ n, t.isReachable n ↔ g.contains entry ∧ g.Reaches entry n) ∧
    (∀ n, n = entry ∨ ¬ g.Reaches entry n → t.immediateDominator n = none) ∧
    ∀ n, n ≠ entry → g.Reaches entry n →
      ∃ d, t.immediateDominator n = some d ∧ d ≠ n ∧
        (∀ visited, g.Path entry visited n → d ∈ visited) ∧
        ∀ m, m ≠ n → (∀ visited, g.Path entry visited n → m ∈ visited) →
          ∀ visited, g.Path entry visited d → m ∈ visited := by
  obtain ⟨t, run, faithful⟩ := dominatorTree_faithful g entry
  refine ⟨t, run, fun n => ?_, fun n => faithful.immediateDominator_eq_none,
    fun n other reach => ?_⟩
  · rw [faithful.isReachable_iff]
    exact ⟨fun reach => ⟨reach.contains.1, reach⟩, And.right⟩
  · obtain ⟨d, link, immediate⟩ := faithful.exists_immediateDominator other reach
    refine ⟨d, link, immediate.strict.1, immediate.strict.2.2, fun m different everywhere => ?_⟩
    exact (immediate.lowest m ⟨different, reach, everywhere⟩).2

end Graph

end ReachingValues
