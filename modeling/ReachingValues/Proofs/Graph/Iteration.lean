import ReachingValues.Proofs.Graph.Search
import ReachingValues.Proofs.Marks

/-!
The enumeration node by node, as a caller draws it, with a table of marks. A node is marked when it
is put on the stack, and what is on the stack or still unmarked is never both; so nothing comes twice,
and every node but the start was put there by one that has come before.
-/

namespace ReachingValues

namespace Graph

variable {α : Type} {g : Graph α} {start n p t : Node} {unmarked stack targets : List Node}

/-- Where an enumeration stands: the nodes that wait, the next one first, and a mark for each node
that has been put among them. -/
structure Enumeration where
  stack : List Node
  marked : Array Bool

namespace Enumeration

/-- Puts a target on the stack, unless it has been there. -/
def push (e : Enumeration) (target : Node) : Except Fault Enumeration := do
  if ← fetch e.marked target then return e
  return ⟨target :: e.stack, ← store e.marked target true⟩

/-- The next node, if one is left, and where the enumeration stands after it. -/
def next (g : Graph α) (e : Enumeration) : Except Fault (Option (Node × Enumeration)) :=
  match e.stack with
  | [] => .ok none
  | n :: rest => do
    let targets ← g.successorsOf n
    let later ← targets.reverse.foldlM push ⟨rest, e.marked⟩
    return some (n, later)

theorem next_cons (n : Node) (rest : List Node) (marked : Array Bool) :
    next g ⟨n :: rest, marked⟩ = do
      let targets ← g.successorsOf n
      let later ← targets.reverse.foldlM push ⟨rest, marked⟩
      return some (n, later) :=
  rfl

/-- Drawing node after node gives the listed ones, and then there is none left. -/
inductive Yields (g : Graph α) : Enumeration → List Node → Prop
  | ended {e : Enumeration} : e.next g = .ok none → Yields g e []
  | next {e later : Enumeration} {n : Node} {rest : List Node} :
      e.next g = .ok (some (n, later)) → Yields g later rest → Yields g e (n :: rest)

end Enumeration

/-- The enumeration before its first node. -/
def enumeration (g : Graph α) (start : Node) : Except Fault Enumeration :=
  if g.contains start then do
    return ⟨[start], ← store (Array.replicate g.nodeCount false) start true⟩
  else .ok ⟨[], #[]⟩

section StackTargets

/-- Stacking moves nodes, and nothing else. -/
theorem stackTargets_perm :
    ((stackTargets unmarked stack targets).1 ++ (stackTargets unmarked stack targets).2).Perm
      (unmarked ++ stack) := by
  induction targets with
  | nil => exact .refl _
  | cons head rest ih =>
    rw [stackTargets_cons]
    split
    · rename_i fresh
      refine List.perm_middle.trans (.trans ?_ ih)
      exact (List.perm_cons_erase fresh).symm.append_right _
    · exact ih

theorem stackTargets_sublist : (stackTargets unmarked stack targets).1.Sublist unmarked := by
  induction targets with
  | nil => exact .refl _
  | cons head rest ih =>
    rw [stackTargets_cons]
    split
    · exact List.erase_sublist.trans ih
    · exact ih

/-- The targets are put there from the last to the first. -/
theorem foldlM_push (distinct : unmarked.Nodup) (inside : ∀ t ∈ targets, t < g.nodeCount) :
    targets.reverse.foldlM Enumeration.push ⟨stack, marksWithout g.nodeCount unmarked⟩ =
      .ok ⟨(stackTargets unmarked stack targets).2,
        marksWithout g.nodeCount (stackTargets unmarked stack targets).1⟩ := by
  induction targets with
  | nil => rfl
  | cons head rest ih =>
    obtain ⟨below, inside⟩ := List.forall_mem_cons.mp inside
    have still : (stackTargets unmarked stack rest).1.Nodup := distinct.sublist stackTargets_sublist
    rw [List.reverse_cons, List.foldlM_append, ih inside, ok_bind, List.foldlM_cons,
      stackTargets_cons, Enumeration.push, fetch_marksWithout below, ok_bind]
    by_cases fresh : head ∈ (stackTargets unmarked stack rest).1
    · rw [if_neg (by simpa using fresh), if_pos fresh, store_marksWithout still below]
      rfl
    · rw [if_pos (by simpa using fresh), if_neg fresh]
      rfl

end StackTargets

theorem yields_depthFirstFrom (distinct : unmarked.Nodup) (inside : ∀ n ∈ stack, n < g.nodeCount) :
    Enumeration.Yields g ⟨stack, marksWithout g.nodeCount unmarked⟩
      (g.depthFirstFrom unmarked stack) := by
  induction unmarked, stack using depthFirstFrom.induct g with
  | case1 unmarked =>
    rw [depthFirstFrom]
    exact .ended rfl
  | case2 unmarked n rest ih =>
    have targets : ∀ t ∈ g.successors n, t < g.nodeCount :=
      fun t edge => (lt_nodeCount_of_mem_successors edge).2
    have later := ih (distinct.sublist stackTargets_sublist) fun m waiting =>
      (mem_of_mem_stackTargets waiting).elim (targets m)
        fun old => inside m (List.mem_cons_of_mem _ old)
    rw [depthFirstFrom]
    refine .next ?_ later
    rw [Enumeration.next_cons, successorsOf_of_lt (inside n List.mem_cons_self), ok_bind,
      foldlM_push distinct targets]
    rfl

theorem depthFirstFrom_subset : g.depthFirstFrom unmarked stack ⊆ unmarked ++ stack := by
  induction unmarked, stack using depthFirstFrom.induct g with
  | case1 unmarked =>
    rw [depthFirstFrom]
    exact List.nil_subset _
  | case2 unmarked n rest ih =>
    rw [depthFirstFrom]
    intro t member
    rcases List.mem_cons.mp member with rfl | later
    · exact List.mem_append_right _ List.mem_cons_self
    · have earlier := stackTargets_perm.subset (ih later)
      exact ((List.sublist_cons_self n rest).append_left unmarked).subset earlier

theorem depthFirstFrom_nodup (distinct : (unmarked ++ stack).Nodup) :
    (g.depthFirstFrom unmarked stack).Nodup := by
  induction unmarked, stack using depthFirstFrom.induct g with
  | case1 unmarked =>
    rw [depthFirstFrom]
    exact List.nodup_nil
  | case2 unmarked n rest ih =>
    obtain ⟨fresh, distinct⟩ := List.nodup_cons.mp (List.perm_middle.nodup distinct)
    rw [depthFirstFrom]
    refine List.nodup_cons.mpr ⟨fun later => fresh ?_, ih (stackTargets_perm.symm.nodup distinct)⟩
    exact stackTargets_perm.subset (depthFirstFrom_subset later)

/-- A node that did not wait at first has been put there by one that has an edge to it. -/
theorem depthFirstFrom_entered {front back : List Node}
    (split : g.depthFirstFrom unmarked stack = front ++ n :: back) :
    n ∈ stack ∨ ∃ p ∈ front, n ∈ g.successors p := by
  induction unmarked, stack using depthFirstFrom.induct g generalizing front with
  | case1 unmarked =>
    rw [depthFirstFrom] at split
    simp at split
  | case2 unmarked top rest ih =>
    rw [depthFirstFrom] at split
    rcases List.cons_eq_append_iff.mp split with ⟨rfl, same⟩ | ⟨front', rfl, later⟩
    · obtain ⟨rfl, _⟩ := List.cons.inj same
      exact Or.inl List.mem_cons_self
    · rcases ih later with waiting | ⟨p, before, edge⟩
      · rcases mem_of_mem_stackTargets waiting with edge | old
        · exact Or.inr ⟨top, List.mem_cons_self, edge⟩
        · exact Or.inl (List.mem_cons_of_mem _ old)
      · exact Or.inr ⟨p, List.mem_cons_of_mem _ before, edge⟩

theorem depthFirst_nodup : (g.depthFirst start).Nodup := by
  unfold depthFirst
  split
  · rename_i inside
    refine depthFirstFrom_nodup (List.perm_middle.symm.nodup (List.nodup_cons.mpr ⟨?_, ?_⟩))
    all_goals rw [List.append_nil]
    · exact List.nodup_range.not_mem_erase
    · exact List.nodup_range.erase start
  · exact List.nodup_nil

theorem exists_depthFirst_eq_cons (inside : g.contains start) :
    ∃ rest, g.depthFirst start = start :: rest :=
  ⟨_, by rw [depthFirst, if_pos inside, depthFirstFrom]⟩

theorem depthFirst_of_outside (outside : ¬ g.contains start) : g.depthFirst start = [] := by
  rw [depthFirst, if_neg outside]

theorem exists_entry_before {front back : List Node}
    (split : g.depthFirst start = front ++ n :: back) (other : n ≠ start) :
    ∃ p ∈ front, n ∈ g.successors p := by
  unfold depthFirst at split
  split at split
  · exact (depthFirstFrom_entered split).resolve_left fun first =>
      other (List.mem_singleton.mp first)
  · simp at split

/-- Drawn node by node, the enumeration uses no mark that its table does not have and comes to an
end; it gives every node that the start reaches once, the start first and any other one after a node
with an edge to it. -/
theorem enumerates_reachable (g : Graph α) (start : Node) :
    (∃ e, g.enumeration start = .ok e ∧ e.Yields g (g.depthFirst start)) ∧
    (¬ g.contains start → g.depthFirst start = []) ∧
    (g.contains start → ∃ rest, g.depthFirst start = start :: rest) ∧
    (g.depthFirst start).Nodup ∧
    (∀ n, n ∈ g.depthFirst start ↔ g.Reaches start n) ∧
    ∀ n ∈ g.depthFirst start, n ≠ start →
      ∃ p, n ∈ g.successors p ∧ [p, n].Sublist (g.depthFirst start) := by
  refine ⟨?_, depthFirst_of_outside, exists_depthFirst_eq_cons, depthFirst_nodup,
    fun n => mem_depthFirst_iff, fun n member other => ?_⟩
  · by_cases inside : g.contains start
    · have room := contains_iff.mp inside
      refine ⟨⟨[start], marksWithout g.nodeCount (g.nodes.erase start)⟩, ?_, ?_⟩
      · rw [enumeration, if_pos inside, store_replicate_false room]
        rfl
      · rw [depthFirst, if_pos inside]
        refine yields_depthFirstFrom (List.nodup_range.erase start) fun n first => ?_
        rw [List.mem_singleton.mp first]
        exact room
    · refine ⟨⟨[], #[]⟩, by rw [enumeration, if_neg inside], ?_⟩
      rw [depthFirst_of_outside inside]
      exact .ended rfl
  · obtain ⟨front, back, split⟩ := List.append_of_mem member
    obtain ⟨p, before, edge⟩ := exists_entry_before split other
    refine ⟨p, edge, ?_⟩
    rw [split]
    exact (List.singleton_sublist.mpr before).append
      (List.singleton_sublist.mpr List.mem_cons_self)

end Graph

end ReachingValues
