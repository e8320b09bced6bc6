import ReachingValues.Proofs.Dominators.Stages
import ReachingValues.Proofs.Dominators.Waiting
import ReachingValues.Proofs.Graph.EdgeLists

/-!
When a node is linked its semidominator is found, and it stays what it is. The computation finds it
as a minimum over edges, in a forest that grows; here it is described by the paths of the graph.
-/

namespace ReachingValues

open SpanningTree

variable {α : Type} {g : Graph α} {entry : Node} {tree : SpanningTree} {n p v w : Node}

namespace SpanningTree

/-- A detour is a path on which the nodes between its two ends are numbered above the last one. -/
theorem detour_iff_path : tree.Detour g v w ↔
    ∃ inner, g.Path v (v :: (inner ++ [w])) w ∧ ∀ x ∈ inner, tree.numberOf w < tree.numberOf x := by
  constructor
  · intro detour
    induction detour with
    | edge edge =>
      exact ⟨[], .step edge (.here (Graph.contains_of_mem_successors edge).2), by simp⟩
    | @step v m w edge more _ ih =>
      obtain ⟨inner, path, higher⟩ := ih
      exact ⟨m :: inner, .step edge path, by simpa [more] using higher⟩
  · rintro ⟨inner, path, higher⟩
    induction inner generalizing v with
    | nil =>
      cases path with
      | step edge rest => exact .edge (rest.head_eq ▸ edge)
    | cons x inner ih =>
      obtain ⟨first, others⟩ := List.forall_mem_cons.mp higher
      cases path with
      | step edge rest =>
        obtain rfl := rest.head_eq
        exact .step edge first (ih rest others)

/-- The semidominator in terms of paths. A node has a number if and only if it is reached. -/
theorem Semidominates.by_paths (semi : tree.Semidominates g n w) (spans : tree.Spans g entry) :
    g.Reaches entry n ∧
      (∃ inner, g.Path n (n :: (inner ++ [w])) w ∧
        ∀ x ∈ inner, tree.numberOf w < tree.numberOf x) ∧
      ∀ v, g.Reaches entry v →
        (∃ inner, g.Path v (v :: (inner ++ [w])) w ∧
          ∀ x ∈ inner, tree.numberOf w < tree.numberOf x) →
        tree.numberOf n ≤ tree.numberOf v :=
  ⟨(spans.numbered_iff n).mp semi.numbered, detour_iff_path.mp semi.detour, fun v reach leads =>
    semi.least v ((spans.numbered_iff v).mpr reach) (detour_iff_path.mpr leads)⟩

end SpanningTree

namespace Semidominators

variable {done pending rest : List Task} {s t : Semidominators}

theorem Task.eq_link_of_links {task : Task} (links : Task.links w task) :
    ∃ p, task = .link p w := by
  cases task with
  | link p n => exact ⟨p, by rw [beq_iff_eq.mp links]⟩
  | _ => cases links

namespace Point

/-- After a node is linked its semidominator is known. -/
theorem semidominates (point : Point g tree done pending s) (spans : tree.Spans g entry)
    (inside : g.contains entry) (linked : .link p w ∈ done) :
    tree.Semidominates g (s.semiOf w) w := by
  obtain ⟨limit, stage, plain⟩ := point.stage spans inside
  refine stage.semidominates (Nat.not_le.mp fun small => plainForest_ne_none linked ?_)
  rw [plain]
  exact if_neg (Nat.not_lt.mpr small)

theorem exists_link (point : Point g tree done pending s)
    (linked : 0 < done.countP (Task.links w)) :
    ∃ before p rest t, Point g tree before (.link p w :: rest) t := by
  obtain ⟨task, member, links⟩ := List.countP_pos_iff.mp linked
  obtain ⟨p, rfl⟩ := Task.eq_link_of_links links
  obtain ⟨before, after, split⟩ := List.append_of_mem member
  obtain ⟨rest, t, atLink⟩ := point.earlier split
  exact ⟨before, p, rest, t, atLink⟩

end Point

/-- Every reached node other than the entry is linked once, below its parent. By then its
semidominator is the node of lowest number from which a path leads to it whose inner nodes have
higher numbers than it has; of the nodes from which such a path leads, those that are not reached
have no number. It is a proper ancestor, and at all later points it is the same. The node waits once
somewhere and is answered once, so that it has an answer when the last pass begins; whatever was put
somewhere has been taken from there as often, and nobody waits any more. -/
theorem semidominators_at_link (inside : g.contains entry) :
    ∃ tree done s links, ofGraph g entry = .ok tree ∧ ofTree g tree = .ok s ∧
      s.settled tree = .ok links ∧ Point g tree done (lastPass tree) s ∧
      Point g tree (done ++ lastPass tree) [] { s with dominator := links } ∧
      (∀ v, done.count (.wait v) = done.countP (Task.answers v)) ∧
      (∀ n, s.waitingAt n = []) ∧
      ∀ w, w ≠ entry → g.Reaches entry w →
        done.countP (Task.links w) = 1 ∧ done.count (.wait w) = 1 ∧
        done.countP (Task.answers w) = 1 ∧ (∃ d, s.dominatorOf w = some d) ∧
        (∃ before p rest t, Point g tree before (.link p w :: rest) t) ∧
        ∀ before p rest t, Point g tree before (.link p w :: rest) t →
          tree.parentOf w = some p ∧ g.Reaches entry (t.semiOf w) ∧
          (∃ inner, g.Path (t.semiOf w) (t.semiOf w :: (inner ++ [w])) w ∧
            ∀ x ∈ inner, tree.numberOf w < tree.numberOf x) ∧
          (∀ v, g.Reaches entry v →
            (∃ inner, g.Path v (v :: (inner ++ [w])) w ∧
              ∀ x ∈ inner, tree.numberOf w < tree.numberOf x) →
            tree.numberOf (t.semiOf w) ≤ tree.numberOf v) ∧
          tree.Above (t.semiOf w) w ∧ t.semiOf w ≠ w ∧
          ∀ after pending later, Point g tree (before ++ .link p w :: after) pending later →
            later.semiOf w = t.semiOf w := by
  obtain ⟨tree, done, s, links, search, spans, run, handled, last, point, finished⟩ :=
    exists_performed inside
  have genuine := spans.toGenuine
  have nowhere : ∀ v n, v ∉ s.waitingAt n := fun v n => handled.not_waiting genuine
  refine ⟨tree, done, s, links, search, run, last, point, finished,
    fun v => point.balance_of_last (nowhere v),
    fun n => List.eq_nil_iff_forall_not_mem.mpr fun v => nowhere v n, fun w other reach => ?_⟩
  have below := (spans.below_iff w).mpr ⟨other, reach⟩
  have linked := point.once_of_last (comesWith_links w) genuine below
  have waited : done.count (.wait w) = 1 :=
    point.once_of_last (comesWith_wait w) genuine below
  obtain ⟨d, dominator, _⟩ := handled.answer genuine below
  refine ⟨linked, waited, (point.balance_of_last (nowhere w)).symm.trans waited, ⟨d, dominator⟩,
    point.exists_link (Nat.lt_of_lt_of_eq Nat.one_pos linked.symm),
    fun before p rest t atLink => ?_⟩
  obtain ⟨_, stage, _⟩ := atLink.stage spans inside
  obtain ⟨parent, semi⟩ := stage.at_link
  obtain ⟨reached, leads, least⟩ := semi.by_paths spans
  refine ⟨parent, reached, leads, least, semi.above genuine below, semi.ne genuine below,
    fun after pending later point => ?_⟩
  have linked : .link p w ∈ before ++ .link p w :: after :=
    List.mem_append_right _ List.mem_cons_self
  exact (point.semidominates spans inside linked).unique genuine semi

/-- The fourth node is below the third one in the tree, but the entry has an edge to it. Of the
other edges into it one comes from itself and one from a node that is not reached. -/
def jump : Graph String :=
  .ofCalls [.node "a", .node "b", .node "c", .node "d", .node "e",
    .edge 0 3, .edge 0 1, .edge 1 2, .edge 2 3, .edge 3 3, .edge 4 3]

theorem semidominators_at_link_jump : jump.contains 0 ∧
    ∃ tree before rest t, ofGraph jump 0 = .ok tree ∧
      Point jump tree before (.link 2 3 :: rest) t ∧ t.semiOf 3 = 0 ∧ tree.Above 0 3 ∧
      ∀ after pending later, Point jump tree (before ++ .link 2 3 :: after) pending later →
        later.semiOf 3 = 0 := by
  have inside : jump.contains 0 := by decide
  have reach : jump.Reaches 0 3 := (Graph.Reaches.refl inside).step (by decide)
  obtain ⟨tree, _, _, _, search, _, _, _, _, _, _, linked⟩ := semidominators_at_link inside
  have computed : (do
      let tree ← ofGraph jump 0
      let (_, pending, t) ← performNext jump tree 6
        ([], tree.belowEntry.reverse.map .handle ++ lastPass tree, initial jump.nodeCount)
      return (pending.head?, t.semiOf 3)) = (.ok (some (.link 2 3), 0) : Except Fault _) := by
    with_unfolding_all rfl
  rw [search, ok_bind] at computed
  obtain ⟨⟨before, pending, t⟩, performed, computed⟩ := bind_eq_ok_iff.mp computed
  obtain ⟨next, semi⟩ : pending.head? = some (.link 2 3) ∧ t.semiOf 3 = 0 := by
    simpa using Except.ok.inj computed
  obtain ⟨rest, rfl⟩ := List.head?_eq_some_iff.mp next
  have atLink := Point.start.of_performNext performed
  obtain ⟨_, _, _, _, _, found⟩ := linked 3 (by decide) reach
  obtain ⟨_, _, _, _, above, _, stays⟩ := found before 2 rest t atLink
  rw [semi] at above stays
  exact ⟨inside, tree, before, rest, t, search, atLink, semi, above, stays⟩

end Semidominators

end ReachingValues
