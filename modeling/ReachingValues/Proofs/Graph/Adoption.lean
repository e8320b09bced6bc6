import Mathlib.Data.List.Dedup
import ReachingValues.Proofs.Graph.EdgeLists
import ReachingValues.Proofs.Graph.Iteration
import ReachingValues.Proofs.Graph.Recursion
import ReachingValues.Proofs.Preorder

/-!
What the enumeration makes of the graph, beside what the recursive search makes of it. A node that is
marked when it is put on the stack stays with the first node that has an edge to it, and the
enumeration is the pre-order of the tree that comes about so. The recursive search may find the node
further down, before its turn comes; then the two lists are different.
-/

namespace ReachingValues

namespace Graph

variable {α : Type} {g : Graph α} {start n t u y : Node}
  {unmarked stack targets front back visits row : List Node}

/-- In one go: the unmarked targets are stacked as they are listed last. -/
theorem stackTargets_eq (distinct : unmarked.Nodup) :
    stackTargets unmarked stack targets =
      (without unmarked targets, targets.dedup.filter (· ∈ unmarked) ++ stack) := by
  induction targets with
  | nil => simp [stackTargets, without]
  | cons head rest ih =>
    rw [stackTargets_cons, ih]
    by_cases left : head ∈ without unmarked rest
    · obtain ⟨fresh, sole⟩ := mem_without.mp left
      have still : (without unmarked rest).Nodup := distinct.sublist List.filter_sublist
      rw [if_pos left, still.erase_eq_filter, ← without_cons, List.dedup_cons_of_notMem sole,
        List.filter_cons_of_pos (by simpa using fresh), List.cons_append]
    · have kept : without unmarked (head :: rest) = without unmarked rest := by
        rw [without_cons, List.filter_eq_self]
        exact fun n member => by simpa using fun same : n = head => left (same ▸ member)
      have unstacked : (head :: rest).dedup.filter (· ∈ unmarked) =
          rest.dedup.filter (· ∈ unmarked) := by
        by_cases again : head ∈ rest
        · rw [List.dedup_cons_of_mem again]
        · have old : head ∉ unmarked := fun fresh => left (mem_without.mpr ⟨fresh, again⟩)
          rw [List.dedup_cons_of_notMem again, List.filter_cons_of_neg (by simpa using old)]
      rw [if_neg left, kept, unstacked]

/-- The nodes that an enumeration puts on the stack when it comes to a node: those of its successors
that no earlier node has an edge to, the start left out, each where it is listed last. -/
def adopted (g : Graph α) (start n : Node) : List Node :=
  (g.successors n).dedup.filter fun t =>
    t ≠ start ∧ (g.depthFirst start).find? (t ∈ g.successors ·) = some n

/-- In a list without repetitions a node is the first of some kind if there is none before it. -/
theorem find?_eq_some_iff_of_split {holds : Node → Bool} (fresh : n ∉ front) (own : holds n) :
    (front ++ n :: back).find? holds = some n ↔ ∀ m ∈ front, holds m = false := by
  rw [List.find?_append, List.find?_cons_of_pos own]
  cases found : front.find? holds with
  | none => simpa using List.find?_eq_none.mp found
  | some m =>
    have earlier := List.mem_of_find?_eq_some found
    have other : m ≠ n := fun same => fresh (same ▸ earlier)
    have fits := List.find?_some found
    simp only [Option.some_or, Option.some.injEq, other, false_iff]
    exact fun none => by simp [none m earlier] at fits

theorem preorder_depthFirstFrom (distinct : unmarked.Nodup)
    (split : g.depthFirst start = front ++ g.depthFirstFrom unmarked stack)
    (unmarked_iff : ∀ t, t ∈ unmarked ↔
      g.contains t ∧ t ≠ start ∧ ∀ p ∈ front, t ∉ g.successors p) :
    Preorder (g.adopted start) stack (g.depthFirstFrom unmarked stack) := by
  induction unmarked, stack using depthFirstFrom.induct g generalizing front with
  | case1 unmarked =>
    rw [depthFirstFrom]
    exact .done
  | case2 unmarked n rest ih =>
    rw [depthFirstFrom, stackTargets_eq distinct] at split ⊢
    rw [stackTargets_eq distinct] at ih
    have fresh : n ∉ front := (not_mem_of_split (split ▸ depthFirst_nodup)).1
    have below : g.adopted start n = (g.successors n).dedup.filter (· ∈ unmarked) := by
      refine List.filter_congr fun t listed => ?_
      have edge : t ∈ g.successors n := List.mem_dedup.mp listed
      rw [split, decide_eq_decide, find?_eq_some_iff_of_split fresh (by simpa using edge),
        unmarked_iff, and_iff_right (contains_of_mem_successors edge).2]
      simp
    have split : g.depthFirst start = (front ++ [n]) ++ g.depthFirstFrom
        (without unmarked (g.successors n))
        ((g.successors n).dedup.filter (· ∈ unmarked) ++ rest) := by
      simpa using split
    refine .visit_joined (below ▸ ih (distinct.sublist List.filter_sublist) split fun t => ?_)
    rw [mem_without, unmarked_iff, and_assoc, and_assoc]
    simp only [List.forall_mem_append, List.forall_mem_singleton]

theorem depthFirst_preorder (inside : g.contains start) :
    Preorder (g.adopted start) [start] (g.depthFirst start) := by
  have split : g.depthFirst start = [] ++ g.depthFirstFrom (g.nodes.erase start) [start] := by
    rw [depthFirst, if_pos inside, List.nil_append]
  rw [split]
  refine preorder_depthFirstFrom (List.nodup_range.erase start) split fun t => ?_
  rw [nodes, List.nodup_range.mem_erase_iff, List.mem_range, contains_iff]
  simp [and_comm]

/-- Pre-order finds every node from the row, on a path through what it finds. -/
theorem exists_path_of_preorder {below : Node → List Node} (edges : ∀ n, below n ⊆ g.successors n)
    (visited : Preorder below row visits) (inside : ∀ r ∈ row, g.contains r) :
    ∀ m ∈ visits, ∃ s ∈ row, ∃ path, g.Path s path m ∧ path ⊆ visits := by
  induction visited with
  | done => simp
  | @visit n rest first later _ _ ihInner ihOuter =>
    obtain ⟨atNode, inRest⟩ := List.forall_mem_cons.mp inside
    refine List.forall_mem_cons.mpr ⟨⟨n, List.mem_cons_self, [n], .here atNode, by simp⟩,
      fun m member => ?_⟩
    rcases List.mem_append.mp member with inner | outer
    · obtain ⟨s, listed, path, toM, within⟩ := ihInner
        (fun r listed => (contains_of_mem_successors (edges n listed)).2) m inner
      refine ⟨n, List.mem_cons_self, n :: path, .step (edges n listed) toM, ?_⟩
      exact List.cons_subset_cons n fun k on => List.mem_append_left _ (within on)
    · obtain ⟨s, listed, path, toM, within⟩ := ihOuter inRest m outer
      exact ⟨s, List.mem_cons_of_mem _ listed, path, toM,
        fun k on => List.mem_cons_of_mem _ (List.mem_append_right _ (within on))⟩

theorem adopted_sublist (g : Graph α) (start n : Node) :
    (g.adopted start n).Sublist (g.successors n) :=
  List.filter_sublist.trans (List.dedup_sublist _)

/-- What is below the nodes adopted in front of another one is found from them. -/
theorem exists_elder {w : Node} {elder younger first : List Node}
    (listed : g.adopted start w = elder ++ y :: younger)
    (visited : Preorder (g.adopted start) elder first) :
    ∀ m ∈ first, ∃ s, [s, y].Sublist (g.successors w) ∧
      ∃ path, g.Path s path m ∧ path ⊆ first := by
  intro m member
  have whole : (elder ++ y :: younger).Sublist (g.successors w) :=
    listed ▸ g.adopted_sublist start w
  have inside : ∀ s ∈ elder, g.contains s := fun s above =>
    (contains_of_mem_successors (whole.subset (List.mem_append_left _ above))).2
  obtain ⟨s, above, path, toM, within⟩ := exists_path_of_preorder
    (fun n => (g.adopted_sublist start n).subset) visited inside m member
  refine ⟨s, .trans ?_ whole, path, toM, within⟩
  exact (List.singleton_sublist.mpr above).append (List.singleton_sublist.mpr List.mem_cons_self)

/-- Every node but the start comes after the first node with an edge to it, with only what is below
other nodes adopted there between the two. -/
theorem exists_adopter (split : g.depthFirst start = front ++ y :: back) (other : y ≠ start) :
    ∃ early w first elder younger, front = early ++ w :: first ∧
      (∀ p ∈ early, y ∉ g.successors p) ∧ g.adopted start w = elder ++ y :: younger ∧
      Preorder (g.adopted start) elder first := by
  have inside : g.contains start := Decidable.not_not.mp fun outside => by
    simp [depthFirst_of_outside outside] at split
  have once : (g.depthFirst start).Nodup := depthFirst_nodup
  obtain ⟨p, before, entering⟩ := exists_entry_before split other
  have entered : ((g.depthFirst start).find? (y ∈ g.successors ·)).isSome :=
    List.find?_isSome.mpr ⟨p, split ▸ List.mem_append_left _ before, decide_eq_true entering⟩
  obtain ⟨w, found⟩ := Option.isSome_iff_exists.mp entered
  have edge : y ∈ g.successors w := by
    have fits := List.find?_some found
    simpa using fits
  have member : y ∈ g.adopted start w :=
    List.mem_filter.mpr ⟨List.mem_dedup.mpr edge, by simp [other, found]⟩
  obtain ⟨elder, younger, listed⟩ := List.append_of_mem member
  obtain ⟨early, _, late, cut, alone⟩ :=
    (depthFirst_preorder inside).exists_segment (List.mem_of_find?_eq_some found)
  obtain ⟨_, rfl, inner⟩ := alone.exists_below
  obtain ⟨first, _, rfl, upper, lower⟩ := (listed ▸ inner).of_append
  obtain ⟨later, rfl⟩ := lower.exists_cons
  have same : front ++ y :: back = (early ++ w :: first) ++ y :: (later ++ late) := by
    rw [← split, cut]
    simp
  have upTo : front = early ++ w :: first := by
    obtain ⟨old, new⟩ := not_mem_of_split (split ▸ once)
    exact ((List.append_cons_inj_of_notMem old new).mp same).1
  refine ⟨early, w, first, elder, younger, upTo, fun p earlier => ?_, listed, upper⟩
  rw [cut, List.append_assoc] at found once
  have apart : w ∉ early := (not_mem_of_split once).1
  exact of_decide_eq_false ((find?_eq_some_iff_of_split apart (decide_eq_true edge)).mp found p
    earlier)

/-- From a successor of a node that the start reaches no path comes to a successor listed later
except by the node itself. -/
def SiblingsApart (g : Graph α) (start : Node) : Prop :=
  ∀ n s t path, g.Reaches start n → [s, t].Sublist (g.successors n) → g.Path s path t → n ∈ path

theorem mem_takeWhile_of_sublist {list : List Node} (before : [t, y].Sublist list)
    (sole : ¬ [y, y].Sublist list) : t ∈ list.takeWhile (· != y) := by
  induction list with
  | nil => cases before
  | cons head rest ih =>
    by_cases same : head = y
    · subst same
      have again : head ∈ rest := by
        rcases List.sublist_cons_iff.mp before with within | ⟨_, cut, within⟩
        · exact within.subset (by simp)
        · obtain ⟨_, rfl⟩ := List.cons.inj cut
          exact List.singleton_sublist.mp within
      exact absurd ((List.singleton_sublist.mpr again).cons_cons head) sole
    · rw [List.takeWhile_cons_of_pos (by simpa using same)]
      rcases List.sublist_cons_iff.mp before with within | ⟨_, cut, _⟩
      · exact List.mem_cons_of_mem _ (ih within fun twice => sole (twice.cons head))
      · obtain ⟨rfl, _⟩ := List.cons.inj cut
        exact List.mem_cons_self

theorem nested_of_siblingsApart (apart : g.SiblingsApart start) :
    g.Nested (g.depthFirst start) := by
  intro front u within y back split edge x member
  have split : g.depthFirst start = (front ++ u :: within) ++ y :: back := by simp [split]
  have reached : g.Reaches start y := mem_depthFirst_iff.mp (by simp [split])
  have other : y ≠ start := by
    rintro rfl
    obtain ⟨rest, starts⟩ := exists_depthFirst_eq_cons reached.contains.1
    exact (not_mem_of_split (split ▸ depthFirst_nodup)).1
      (first_mem_of_split (split.symm.trans starts) (by simp))
  obtain ⟨early, w, first, elder, younger, cut, passed, listed, upper⟩ := exists_adopter split other
  have once : (early ++ w :: (first ++ y :: back)).Nodup := by
    have once : (g.depthFirst start).Nodup := depthFirst_nodup
    rw [split, cut] at once
    simpa using once
  have atW : g.Reaches start w := mem_depthFirst_iff.mp (by simp [split, cut])
  have alone : w ∉ first ++ y :: back := (List.nodup_cons.mp (List.nodup_append.mp once).2.1).1
  rcases split_append cut with ⟨between, rfl⟩ | ⟨between, rfl, same⟩
  · -- `y` waits from an earlier node on, and `u` is below a sibling of it
    rw [List.append_assoc, List.cons_append, List.append_cancel_left_eq] at cut
    obtain ⟨_, rfl⟩ := List.cons.inj cut
    obtain ⟨s, before, path, toU, inside⟩ := exists_elder listed upper u (by simp)
    have passes := apart w s y (path ++ [y]) atW before (toU.concat edge)
    rcases List.mem_append.mp passes with on | last
    · exact absurd (List.mem_append_left _ (inside on)) alone
    · exact absurd (List.mem_singleton.mp last ▸ by simp) alone
  · rcases List.cons_eq_append_iff.mp same with ⟨_, same⟩ | ⟨between, rfl, _⟩
    · obtain ⟨rfl, rfl⟩ := List.cons.inj same
      obtain ⟨s, before, path, toX, inside⟩ := exists_elder listed upper x member
      refine ⟨s, mem_takeWhile_of_sublist before fun twice => alone ?_, path, toX, inside⟩
      have passes := apart w y y [y] atW twice (.here reached.contains.2)
      simp [List.mem_singleton.mp passes]
    · exact absurd edge (passed u (by simp))

/-- The enumeration lists the nodes that the recursive search visits. It lists them as a recursion
does that goes down from a node to those that it is the first to have an edge to. This is the order
of the recursive search just when it is nested, and so in particular if the successors of a node can
reach one another through the node only. -/
theorem depthFirst_against_recursion (g : Graph α) (start : Node) :
    (g.depthFirst start).Perm (g.recursion start) ∧
    (g.contains start → Preorder (g.adopted start) [start] (g.depthFirst start)) ∧
    (g.depthFirst start = g.recursion start ↔ g.Nested (g.depthFirst start)) ∧
    (g.SiblingsApart start → g.depthFirst start = g.recursion start) := by
  have same : (g.depthFirst start).Perm (g.recursion start) :=
    (List.perm_ext_iff_of_nodup depthFirst_nodup recursion_nodup).mpr fun n =>
      mem_depthFirst_iff.trans mem_recursion_iff.symm
  have first : (g.depthFirst start).head? = (g.recursion start).head? := by
    by_cases inside : g.contains start
    · obtain ⟨_, listed⟩ := exists_depthFirst_eq_cons inside
      obtain ⟨_, visited⟩ := exists_recursion_eq_cons inside
      rw [listed, visited, List.head?_cons, List.head?_cons]
    · rw [depthFirst_of_outside inside, recursion_of_outside inside]
  have agree : g.Nested (g.depthFirst start) → g.depthFirst start = g.recursion start :=
    eq_recursion_of_nested same first
  refine ⟨same, depthFirst_preorder, ⟨fun equal => ?_, agree⟩,
    fun apart => agree (nested_of_siblingsApart apart)⟩
  rw [equal]
  exact recursion_nested

/-- A loop with an exit behind its body. -/
def loop : Graph String :=
  ofCalls [.node "a", .node "b", .node "c", .node "d", .edge 0 1, .edge 1 2, .edge 1 3, .edge 2 1]

theorem depthFirst_against_recursion_loop :
    loop.SiblingsApart 0 ∧ loop.depthFirst 0 = loop.recursion 0 := by
  have apart : loop.SiblingsApart 0 := by
    intro n s t path reach pair leads
    have inside : n < 4 := contains_iff.mp reach.contains.2
    have single : ∀ n < 4, n ≠ 1 → (loop.successors n).length < 2 := by decide
    have head : n = 1 := Decidable.not_not.mp fun other =>
      absurd pair.length_le (Nat.not_le_of_lt (single n inside other))
    subst head
    have both : [s, t] = [2, 3] := pair.eq_of_length rfl
    obtain ⟨rfl, rfl⟩ : s = 2 ∧ t = 3 := by simpa using both
    cases leads with
    | step edge rest =>
      have back : ∀ m ∈ loop.successors 2, m = 1 := by decide
      exact List.mem_cons_of_mem _ (back _ edge ▸ rest.source_mem)
  exact ⟨apart, (depthFirst_against_recursion loop 0).2.2.2 apart⟩

/-- The third node is listed by the first one and, before the last node, by the second one. -/
def crossed : Graph String :=
  ofCalls [.node "a", .node "b", .node "c", .node "d", .edge 0 1, .edge 0 2, .edge 1 2, .edge 1 3]

/-- The enumeration has put the third node on the stack before it comes to the second one, and gets to
it last. -/
theorem depthFirst_ne_recursion_crossed : crossed.contains 0 ∧
    crossed.depthFirst 0 = [0, 1, 3, 2] ∧ crossed.recursion 0 = [0, 1, 2, 3] ∧
    crossed.depthFirst 0 ≠ crossed.recursion 0 := by
  have edges : crossed.successors 0 = [1, 2] ∧ crossed.successors 1 = [2, 3] ∧
      crossed.successors 2 = [] ∧ crossed.successors 3 = [] := by decide
  have known : crossed.nodes = [0, 1, 2, 3] := by decide
  have stacked : crossed.depthFirst 0 = [0, 1, 3, 2] := by with_unfolding_all rfl
  have visited : crossed.recursion 0 = [0, 1, 2, 3] := by
    simp [recursion, recursionFrom, without, known, edges]
  exact ⟨by decide, stacked, visited, by simp [stacked, visited]⟩

end Graph

end ReachingValues
