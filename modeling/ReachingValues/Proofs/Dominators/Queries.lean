import ReachingValues.Proofs.Dominators.CompressionLoop
import ReachingValues.Proofs.Dominators.Stages
import ReachingValues.Proofs.Graph.EdgeLists

/-!
What a query of the forest answers at any point of the computation. The forest that is queried has
been shortened by all queries before, and still the answer is that of the plain forest of all links
made so far. A query changes the links but neither the root of any node nor the rank of any answer.
-/

namespace ReachingValues

open SpanningTree Forest

variable {α : Type} {g : Graph α} {entry : Node} {tree : SpanningTree}

namespace Semidominators

variable {s t : Semidominators} {limit : Nat} {n : Node} {done pending : List Task}

/-- The states that queries alone lead to. Such queries are also the first half of the tasks that
consider an edge or answer a node. -/
inductive Asked (tree : SpanningTree) (s : Semidominators) : Semidominators → Prop
  | unasked : Asked tree s s
  | query {t t' : Semidominators} {n low : Node} : Asked tree s t →
      t.lowest tree n = .ok (low, t') → Asked tree s t'

/-- A query finds what the tree cut off at the limit tells. It runs the two loops of the compression
unless it is for a root. -/
theorem Consistent.query (consistent : s.Consistent g tree limit) (genuine : tree.Genuine g entry)
    (inside : n < g.nodeCount) :
    ∃ low forest, s.lowest tree n = .ok (low, { s with forest }) ∧
      ({ s with forest } : Semidominators).Consistent g tree limit ∧
      Finds (tree.upBeyond limit) (s.rankOf tree) n low ∧
      (tree.upBeyond limit n = none → forest = s.forest) ∧
      (tree.upBeyond limit n ≠ none → ∃ path, s.forest.Climbs n path ∧
        s.forest.compressAlong (rank tree s.semi) path = .ok forest) := by
  have plain := genuine.isPlain limit
  have ranks := fun n inside => consistent.rank_eq genuine (n := n) inside
  have shallow := genuine.height_lt inside
  obtain ⟨low, forest, run, again, finds⟩ :=
    consistent.compresses.lowest plain ranks inside shallow
  obtain ⟨idle, loops⟩ :=
    consistent.compresses.loops_of_lowest plain ranks inside shallow run
  exact ⟨low, forest, by rw [Semidominators.lowest, run]; rfl,
    { consistent with compresses := again }, finds, idle, loops⟩

theorem Asked.consistent (asked : Asked tree s t) (genuine : tree.Genuine g entry)
    (start : s.Consistent g tree limit) : t.Consistent g tree limit := by
  induction asked with
  | unasked => exact start
  | @query t t' n low _ run ih =>
    obtain ⟨⟨_, _⟩, answered, _⟩ := bind_eq_ok_iff.mp run
    obtain ⟨_, known, _⟩ := bind_eq_ok_iff.mp answered
    have inside : n < t.forest.link.size :=
      (Array.getElem?_eq_some_iff.mp (fetch_eq_ok_iff.mp known)).1
    rw [ih.compresses.link_size] at inside
    obtain ⟨low', forest, again, consistent, _⟩ := ih.query genuine inside
    obtain ⟨_, rfl⟩ := Prod.mk.inj (Except.ok.inj (run.symm.trans again))
    exact consistent

/-- The forest of a point is a compressed form of the plain one, also after further queries. -/
theorem Point.consistent (point : Point g tree done pending s) (spans : tree.Spans g entry)
    (inside : g.contains entry) (asked : Asked tree s t) :
    ∃ limit, t.Consistent g tree limit ∧ plainForest done = tree.upBeyond limit := by
  obtain ⟨limit, stage, plain⟩ := point.stage spans inside
  exact ⟨limit, asked.consistent spans.toGenuine stage.consistent, plain⟩

/-- Before the first link a query finds the node itself, whatever the numbers are by then. -/
theorem lowest_initial (tree : SpanningTree) {nodeCount : Nat} (inside : n < nodeCount) :
    (initial nodeCount).lowest tree n = .ok (n, initial nodeCount) := by
  have unlinked : fetch (initial nodeCount).forest.link n = .ok none := by
    rw [fetch_eq_ok_iff]
    simp [initial, singletons, inside]
  rw [Semidominators.lowest, Forest.lowest, unlinked]
  rfl

/-- At every point, also after further queries, a query succeeds. For a root of the plain forest it
finds that root and changes nothing. For any other node the two loops of the compression end, and what
is found is a node of lowest rank on the way up to the root, the root left out. Afterwards every node
has the root that it has in the plain forest and that it had before, and for every node the rank of
what is found is what it was. -/
theorem queries_see_plain_forest (inside : g.contains entry) :
    ∃ tree done s links, ofGraph g entry = .ok tree ∧ ofTree g tree = .ok s ∧
      s.settled tree = .ok links ∧ Point g tree done [] { s with dominator := links } ∧
      (∀ unfinished : SpanningTree, ∀ n < g.nodeCount,
        (initial g.nodeCount).lowest unfinished n = .ok (n, initial g.nodeCount)) ∧
      ∀ done pending s, Point g tree done pending s → ∀ t, Asked tree s t → ∀ n < g.nodeCount,
        ∃ low forest, t.lowest tree n = .ok (low, { t with forest }) ∧
          (plainForest done n = none → low = n ∧ forest = t.forest) ∧
          (plainForest done n ≠ none →
            (∃ path, t.forest.Climbs n path ∧
              t.forest.compressAlong (rank tree t.semi) path = .ok forest) ∧
            ∃ met root, Way (plainForest done) n met root ∧ plainForest done root = none ∧
              low ∈ met ∧ ∀ u ∈ met, tree.numberOf (t.semiOf low) ≤ tree.numberOf (t.semiOf u)) ∧
          ∀ m < g.nodeCount,
            (∃ root, HasRoot (plainForest done) m root ∧ HasRoot t.forest.linkOf m root ∧
              HasRoot forest.linkOf m root) ∧
            ∃ before after u v, t.lowest tree m = .ok (before, u) ∧
              ({ t with forest } : Semidominators).lowest tree m = .ok (after, v) ∧
              tree.numberOf (t.semiOf before) = tree.numberOf (t.semiOf after) := by
  obtain ⟨tree, _, final, links, search, spans, run, _, last, _, finished⟩ :=
    exists_performed inside
  refine ⟨tree, _, final, links, search, run, last, finished,
    fun unfinished n inside => lowest_initial unfinished inside,
    fun done pending s point t asked n insideN => ?_⟩
  have genuine := spans.toGenuine
  obtain ⟨limit, consistent, plain⟩ := point.consistent spans inside asked
  obtain ⟨low, forest, run, again, finds, idle, loops⟩ := consistent.query genuine insideN
  rw [plain]
  refine ⟨low, forest, run, fun root => ⟨finds.eq_of_root root, idle root⟩,
    fun below => ⟨loops below, ?_⟩, fun m insideM => ⟨?_, ?_⟩⟩
  · obtain ⟨met, root, way, atRoot, member, least⟩ := finds.lowest below
    exact ⟨met, root, way, atRoot, member, least⟩
  · exact consistent.compresses.same_root again.compresses (genuine.isPlain limit) m
  · obtain ⟨before, forest₁, first, _, found, _⟩ := consistent.query genuine insideM
    obtain ⟨after, forest₂, second, _, found', _⟩ := again.query genuine insideM
    exact ⟨before, after, _, _, first, second, found.rank_eq found'⟩

/-- The last node has an edge back to the second one. When that edge is considered, the two are two
links apart. -/
def backEdge : Graph String :=
  .ofCalls [.node "a", .node "b", .node "c", .node "d", .edge 0 1, .edge 1 2, .edge 2 3, .edge 3 1]

theorem queries_see_plain_forest_backEdge : backEdge.contains 0 ∧
    ∃ tree done rest s low forest, ofGraph backEdge 0 = .ok tree ∧
      Point backEdge tree done (.consider 1 3 :: rest) s ∧ s.forest.linkOf 3 = some 2 ∧
      s.lowest tree 3 = .ok (low, { s with forest }) ∧ low ∈ [3, 2] ∧
      tree.numberOf (s.semiOf low) ≤ tree.numberOf (s.semiOf 2) ∧ HasRoot forest.linkOf 3 1 := by
  have inside : backEdge.contains 0 := by decide
  obtain ⟨tree, _, _, _, search, _, _, _, _, queries⟩ := queries_see_plain_forest inside
  have computed : (do
      let tree ← ofGraph backEdge 0
      let (done, pending, s) ← performNext backEdge tree 14
        ([], tree.belowEntry.reverse.map .handle ++ lastPass tree, initial backEdge.nodeCount)
      return ([3, 2, 1].map (plainForest done), pending.head?, s.forest.linkOf 3)) =
        (.ok ([some 2, some 1, none], some (.consider 1 3), some 2) : Except Fault _) := by
    with_unfolding_all rfl
  rw [search, ok_bind] at computed
  obtain ⟨⟨done, pending, s⟩, performed, computed⟩ := bind_eq_ok_iff.mp computed
  have point := Point.start.of_performNext performed
  obtain ⟨⟨third, second, first⟩, next, link⟩ : (plainForest done 3 = some 2 ∧
      plainForest done 2 = some 1 ∧ plainForest done 1 = none) ∧
      pending.head? = some (.consider 1 3) ∧ s.forest.linkOf 3 = some 2 := by
    simpa using Except.ok.inj computed
  obtain ⟨rest, rfl⟩ := List.head?_eq_some_iff.mp next
  obtain ⟨low, forest, run, _, answer, others⟩ := queries done _ s point s .unasked 3 (by decide)
  obtain ⟨_, met, root, way, atRoot, member, least⟩ := answer (by simp [third])
  obtain ⟨rfl, rfl⟩ := way.unique (.up third (.up second .here)) atRoot first
  obtain ⟨⟨root, plain, _, links⟩, _⟩ := others 3 (by decide)
  obtain rfl := plain.unique ⟨first, [3, 2], .up third (.up second .here)⟩
  exact ⟨inside, tree, done, rest, s, low, forest, search, point, link, run, member,
    least 2 (by simp), links⟩

end Semidominators

end ReachingValues
