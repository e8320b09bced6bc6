import ReachingValues.Dominators.Semidominators
import ReachingValues.Proofs.Dominators.Compression
import ReachingValues.Proofs.Dominators.Detours

/-!
The nodes are handled from the highest number down. After those numbered above a limit are done, the
forest is a compressed form of the tree cut off at the limit, the semidominators of these nodes are
known, and each of them either waits at its semidominator or has been answered. An answer is the
immediate dominator itself or a node above that has the same one.
-/

namespace ReachingValues

open SpanningTree

variable {α : Type} {g : Graph α} {entry : Node} {tree : SpanningTree}

/-- The way up from the nodes numbered above the limit. -/
def SpanningTree.upBeyond (tree : SpanningTree) (limit : Nat) (n : Node) : Option Node :=
  if limit < tree.numberOf n then tree.parentOf n else none

section UpBeyond

variable {limit : Nat} {n u w p x root : Node} {met : List Node}

theorem SpanningTree.Genuine.isPlain (genuine : tree.Genuine g entry) (limit : Nat) :
    Forest.IsPlain g.nodeCount (tree.upBeyond limit) (fun n => tree.numberOf n - 1) where
  inside n m up := by
    unfold upBeyond at up
    split at up
    · exact (Graph.lt_nodeCount_of_mem_successors (genuine.parent_spec up).1).symm
    · cases up
  falls n m up := by
    unfold upBeyond at up
    split at up
    · have parent := genuine.parent_spec up
      omega
    · cases up

/-- No way up is longer than there are nodes. -/
theorem SpanningTree.Genuine.height_lt (genuine : tree.Genuine g entry) (inside : n < g.nodeCount) :
    tree.numberOf n - 1 < g.nodeCount := by
  have bound := genuine.number_le_size n
  have total := genuine.order_size_le
  have nonempty : 0 < g.nodeCount := Nat.zero_lt_of_lt inside
  omega

theorem SpanningTree.Genuine.succ_lt_number (genuine : tree.Genuine g entry)
    (number : tree.numberOf w = limit + 1) (beyond : limit < tree.numberOf n) (other : n ≠ w) :
    limit + 1 < tree.numberOf n := by
  have unequal : tree.numberOf n ≠ limit + 1 := fun same =>
    other (genuine.eq_of_number_eq (by omega) (same.trans number.symm))
  omega

theorem SpanningTree.upBeyond_pred (genuine : tree.Genuine g entry)
    (number : tree.numberOf w = limit + 1) (parent : tree.parentOf w = some p) :
    (fun n => if n = w then some p else tree.upBeyond (limit + 1) n) = tree.upBeyond limit := by
  funext n
  by_cases same : n = w
  · simp [same, upBeyond, number, parent]
  · have bounds : limit + 1 < tree.numberOf n ↔ limit < tree.numberOf n :=
      ⟨Nat.lt_of_succ_lt, fun beyond => genuine.succ_lt_number number beyond same⟩
    simp only [upBeyond, same, if_false, bounds]

/-- No node is numbered above the number of all nodes. -/
theorem SpanningTree.Genuine.upBeyond_size (genuine : tree.Genuine g entry) :
    tree.upBeyond tree.order.size = fun _ => none :=
  funext fun n => if_neg (Nat.not_lt.mpr (genuine.number_le_size n))

theorem SpanningTree.above_of_mem_way (way : Forest.Way (tree.upBeyond limit) n met root)
    (member : x ∈ met) : tree.Above x n ∧ limit < tree.numberOf x := by
  induction way with
  | here => simp at member
  | up parent rest ih =>
    unfold upBeyond at parent
    split at parent
    · rename_i beyond
      rcases List.mem_cons.mp member with rfl | later
      · exact ⟨.here, beyond⟩
      · exact ⟨.up parent (ih later).1, (ih later).2⟩
    · cases parent

/-- The way up to a root of the cut tree misses no ancestor numbered above the limit. -/
theorem SpanningTree.Genuine.mem_way (genuine : tree.Genuine g entry) (positive : 0 < limit)
    (way : Forest.Way (tree.upBeyond limit) n met root) (atRoot : tree.upBeyond limit root = none)
    (above : tree.Above u n) (beyond : limit < tree.numberOf u) : u ∈ met := by
  induction way with
  | @here n =>
    have le := genuine.number_le above
    obtain ⟨p, parent, _⟩ := genuine.parent_some n (by omega)
    rw [upBeyond, if_pos (by omega), parent] at atRoot
    cases atRoot
  | @up n m a met parent rest ih =>
    by_cases same : u = n
    · exact same ▸ List.mem_cons_self
    · obtain ⟨p, link, higher⟩ := above.parent same
      unfold upBeyond at parent
      split at parent
      · obtain rfl := Option.some.inj (link.symm.trans parent)
        exact List.mem_cons_of_mem _ (ih atRoot higher)
      · cases parent

end UpBeyond

namespace Semidominators

variable {s : Semidominators} {limit : Nat} {n v w : Node}

def semiOf (s : Semidominators) (n : Node) : Node := s.semi[n]?.getD n

def waitingAt (s : Semidominators) (n : Node) : List Node := s.waiting[n]?.getD []

def dominatorOf (s : Semidominators) (n : Node) : Option Node := s.dominator[n]?.getD none

def rankOf (tree : SpanningTree) (s : Semidominators) (n : Node) : Nat :=
  tree.numberOf (s.semiOf n)

/-- The tables fit the graph, and the forest answers for the tree cut off at the limit. -/
structure Consistent (s : Semidominators) (g : Graph α) (tree : SpanningTree) (limit : Nat) :
    Prop where
  semi_size : s.semi.size = g.nodeCount
  waiting_size : s.waiting.size = g.nodeCount
  dominator_size : s.dominator.size = g.nodeCount
  semi_lt : ∀ n < g.nodeCount, s.semiOf n < g.nodeCount
  compresses : s.forest.Compresses g.nodeCount (tree.upBeyond limit) (s.rankOf tree)

namespace Consistent

variable (consistent : s.Consistent g tree limit)

include consistent

theorem fetch_semi (inside : n < g.nodeCount) : fetch s.semi n = .ok (s.semiOf n) :=
  fetch_eq (by rw [consistent.semi_size]; exact inside) n

theorem rank_eq (genuine : tree.Genuine g entry) (inside : n < g.nodeCount) :
    rank tree s.semi n = .ok (s.rankOf tree n) := by
  have room : s.semiOf n < tree.number.size := by
    rw [genuine.size_eq]
    exact consistent.semi_lt n inside
  rw [rank, consistent.fetch_semi inside, ok_bind, fetch_eq room 0]
  rfl

/-- What a query of the forest answers: a node for itself up to the limit, and beyond it an ancestor
of lowest rank among those beyond it. -/
theorem lowest (genuine : tree.Genuine g entry) (positive : 0 < limit) (inside : n < g.nodeCount) :
    ∃ low forest, s.lowest tree n = .ok (low, { s with forest }) ∧
      ({ s with forest } : Semidominators).Consistent g tree limit ∧ low < g.nodeCount ∧
      (tree.numberOf n ≤ limit → low = n) ∧
      (limit < tree.numberOf n → tree.Above low n ∧ limit < tree.numberOf low ∧
        ∀ u, tree.Above u n → limit < tree.numberOf u → s.rankOf tree low ≤ s.rankOf tree u) := by
  obtain ⟨low, forest, run, again, met, root, way, atRoot, answer⟩ :=
    consistent.compresses.lowest (genuine.isPlain limit)
      (fun n inside => consistent.rank_eq genuine inside) inside (genuine.height_lt inside)
  refine ⟨low, forest, ?_, ?_, ?_, ?_⟩
  · rw [Semidominators.lowest, run]
    rfl
  · exact ⟨consistent.semi_size, consistent.waiting_size, consistent.dominator_size,
      consistent.semi_lt, again⟩
  · rcases answer with ⟨_, rfl⟩ | best
    · exact inside
    · exact (genuine.isPlain limit).lt_size way best.1
  refine ⟨fun small => ?_, fun beyond => ?_⟩
  · have isRoot : tree.upBeyond limit n = none := if_neg (Nat.not_lt.mpr small)
    rcases answer with ⟨_, same⟩ | best
    · exact same
    · cases way with
      | here => exact absurd best.1 List.not_mem_nil
      | up parent _ => rw [isRoot] at parent; cases parent
  · have present := genuine.mem_way positive way atRoot .here beyond
    have best := answer.resolve_left fun empty => List.ne_nil_of_mem present empty.1
    have onWay := above_of_mem_way way best.1
    exact ⟨onWay.1, onWay.2, fun u above more =>
      best.2 u (genuine.mem_way positive way atRoot above more)⟩

/-- Changing the semidominator of a node that is not in the forest yet. -/
theorem setSemi (inside : w < g.nodeCount) (small : tree.numberOf w ≤ limit) {x : Node}
    (valid : x < g.nodeCount) :
    ({ s with semi := s.semi.setIfInBounds w x } : Semidominators).Consistent g tree limit ∧
      ∀ m, ({ s with semi := s.semi.setIfInBounds w x } : Semidominators).semiOf m =
        if m = w then x else s.semiOf m := by
  have room : w < s.semi.size := by rw [consistent.semi_size]; exact inside
  have semis : ∀ m, ({ s with semi := s.semi.setIfInBounds w x } : Semidominators).semiOf m =
      if m = w then x else s.semiOf m := fun m => getD_setIfInBounds room m x m
  refine ⟨⟨?_, consistent.waiting_size, consistent.dominator_size, fun m within => ?_, ?_⟩, semis⟩
  · rw [Array.size_setIfInBounds, consistent.semi_size]
  · rw [semis]
    split
    · exact valid
    · exact consistent.semi_lt m within
  · refine consistent.compresses.congr_rank fun m notRoot => ?_
    have other : m ≠ w := by
      rintro rfl
      exact notRoot (if_neg (Nat.not_lt.mpr small))
    rw [rankOf, rankOf, semis, if_neg other]

/-- An edge to `w` lowers the semidominator of `w` to that of the node that the forest answers with,
and an edge from a node that is not reached does nothing. -/
theorem considerEdge (genuine : tree.Genuine g entry) (positive : 0 < limit)
    (small : tree.numberOf w ≤ limit) (edge : w ∈ g.successors v) :
    ∃ s', Semidominators.considerEdge tree w s v = .ok s' ∧ s'.Consistent g tree limit ∧
      s'.waiting = s.waiting ∧ s'.dominator = s.dominator ∧
      (∀ m, m ≠ w → s'.semiOf m = s.semiOf m) ∧
      (tree.numberOf v = 0 → s'.semiOf w = s.semiOf w) ∧
      (0 < tree.numberOf v → ∃ low,
        s'.semiOf w =
          (if s.rankOf tree low < s.rankOf tree w then s.semiOf low else s.semiOf w) ∧
        (tree.numberOf v ≤ limit → low = v) ∧
        (limit < tree.numberOf v → tree.Above low v ∧ limit < tree.numberOf low ∧
          ∀ u, tree.Above u v → limit < tree.numberOf u →
            s.rankOf tree low ≤ s.rankOf tree u)) := by
  obtain ⟨insideV, insideW⟩ := Graph.lt_nodeCount_of_mem_successors edge
  have room : v < tree.number.size := by rw [genuine.size_eq]; exact insideV
  have numberV : fetch tree.number v = .ok (tree.numberOf v) := fetch_eq room 0
  rw [Semidominators.considerEdge, numberV, ok_bind]
  by_cases unreached : tree.numberOf v = 0
  · refine ⟨s, by simp [unreached], consistent, rfl, rfl, fun _ _ => rfl, fun _ => rfl, ?_⟩
    intro reached
    omega
  · obtain ⟨low, forest, run, again, insideLow, itself, best⟩ :=
      consistent.lowest genuine positive insideV
    have rankLow := again.rank_eq genuine insideLow
    have rankW := again.rank_eq genuine insideW
    have semiLow := again.fetch_semi insideLow
    have roomW : w < s.semi.size := by rw [consistent.semi_size]; exact insideW
    rw [if_neg unreached]
    simp only [run, ok_bind, rankLow, rankW, semiLow, store_eq roomW]
    by_cases less : s.rankOf tree low < s.rankOf tree w
    · obtain ⟨changed, semis⟩ := again.setSemi insideW small (again.semi_lt low insideLow)
      refine ⟨_, if_pos less, changed, rfl, rfl, fun m other => ?_, fun none => ?_, fun _ => ?_⟩
      · rw [semis, if_neg other]
        rfl
      · exact absurd none unreached
      · refine ⟨low, ?_, itself, best⟩
        rw [semis, if_pos rfl, if_pos less]
        rfl
    · refine ⟨_, if_neg less, again, rfl, rfl, fun _ _ => rfl, fun _ => rfl, fun _ => ?_⟩
      exact ⟨low, (if_neg less).symm, itself, best⟩

theorem wait (insideW : w < g.nodeCount) :
    ∃ s', s.wait w = .ok s' ∧ s'.Consistent g tree limit ∧ s'.semi = s.semi ∧
      s'.forest = s.forest ∧ s'.dominator = s.dominator ∧
      ∀ n, s'.waitingAt n = if n = s.semiOf w then w :: s.waitingAt n else s.waitingAt n := by
  have room : s.semiOf w < s.waiting.size := by
    rw [consistent.waiting_size]
    exact consistent.semi_lt w insideW
  let waits := s.waiting.setIfInBounds (s.semiOf w) (w :: s.waitingAt (s.semiOf w))
  refine ⟨{ s with waiting := waits }, ?_, ?_, rfl, rfl, rfl, fun n => ?_⟩
  · rw [Semidominators.wait, consistent.fetch_semi insideW, ok_bind, fetch_eq room [], ok_bind,
      store_eq room]
    rfl
  · refine ⟨consistent.semi_size, ?_, consistent.dominator_size, consistent.semi_lt,
      consistent.compresses⟩
    rw [Array.size_setIfInBounds, consistent.waiting_size]
  · refine (getD_setIfInBounds room n _ []).trans ?_
    split
    · rename_i same
      rw [same]
    · rfl

end Consistent

/-- An answer for `n`: its immediate dominator, if that is its semidominator, and otherwise the node
on the way to the semidominator whose own semidominator is lowest. -/
def Answers (semi : Node → Node) (g : Graph α) (tree : SpanningTree) (n d : Node) : Prop :=
  d = semi n ∧ tree.Clear g (tree.numberOf (semi n)) (semi n) n ∨
    d ≠ semi n ∧ d ≠ n ∧ tree.Above (semi n) d ∧ tree.Above d n ∧
      tree.Semidominates g (semi d) d ∧ tree.Clear g (tree.numberOf (semi d)) (semi n) n

theorem Answers.congr {semi semi' : Node → Node} {d : Node} (answers : Answers semi g tree n d)
    (same : semi' n = semi n) (known : tree.Semidominates g (semi d) d → semi' d = semi d) :
    Answers semi' g tree n d := by
  unfold Answers
  rw [same]
  rcases answers with direct | ⟨other, different, upper, lower, lowest, clear⟩
  · exact Or.inl direct
  · rw [known lowest]
    exact Or.inr ⟨other, different, upper, lower, lowest, clear⟩

/-- What is known once the nodes numbered above the limit are in the forest: each of them waits at
its semidominator or has been answered. -/
structure Known (s : Semidominators) (g : Graph α) (tree : SpanningTree) (limit : Nat) : Prop
    extends s.Consistent g tree limit where
  done : ∀ n, limit < tree.numberOf n → tree.Semidominates g (s.semiOf n) n
  untouched : ∀ n, tree.numberOf n ≤ limit → s.semiOf n = n
  waits_at_semi : ∀ n v, v ∈ s.waitingAt n → limit < tree.numberOf v ∧ s.semiOf v = n
  answered : ∀ v, limit < tree.numberOf v → v ∈ s.waitingAt (s.semiOf v) ∨
    ∃ d, s.dominatorOf v = some d ∧ Answers s.semiOf g tree v d
  unanswered : ∀ n, tree.numberOf n ≤ limit → s.dominatorOf n = none

/-- The state after the nodes numbered above the limit are handled: whoever still waits at the
parent of such a node is numbered lower than it. -/
structure Handled (s : Semidominators) (g : Graph α) (tree : SpanningTree) (limit : Nat) : Prop
    extends s.Known g tree limit where
  released : ∀ w p v, limit < tree.numberOf w → tree.parentOf w = some p → v ∈ s.waitingAt p →
    tree.numberOf v < tree.numberOf w

/-- The edges into `w` from the nodes in `seen` have been considered, starting from `s`. -/
structure Considered (s s' : Semidominators) (g : Graph α) (tree : SpanningTree) (limit : Nat)
    (w : Node) (seen : List Node) : Prop extends s'.Consistent g tree limit where
  waiting_eq : s'.waiting = s.waiting
  dominator_eq : s'.dominator = s.dominator
  semi_eq : ∀ m, m ≠ w → s'.semiOf m = s.semiOf m
  number_le : tree.numberOf (s'.semiOf w) ≤ tree.numberOf w
  detour : s'.semiOf w = w ∨
    0 < tree.numberOf (s'.semiOf w) ∧ tree.Detour g (s'.semiOf w) w
  sources : ∀ v ∈ seen, 0 < tree.numberOf v → tree.numberOf v ≤ limit →
    tree.numberOf (s'.semiOf w) ≤ tree.numberOf v
  higher : ∀ v ∈ seen, ∀ u, tree.Above u v → limit < tree.numberOf u →
    tree.numberOf (s'.semiOf w) ≤ tree.numberOf (s.semiOf u)

section Handle

variable {s' : Semidominators} {seen : List Node} {p : Node}

/-- What the forest answers for the source of an edge is the start of a detour. -/
theorem Considered.candidate (considered : Considered s s' g tree limit w seen)
    (handled : s.Handled g tree limit) (genuine : tree.Genuine g entry)
    (number : tree.numberOf w = limit) (edge : w ∈ g.successors v) (reached : 0 < tree.numberOf v)
    {low : Node} (itself : tree.numberOf v ≤ limit → low = v)
    (beyond : limit < tree.numberOf v → tree.Above low v ∧ limit < tree.numberOf low) :
    low = w ∨ 0 < tree.numberOf (s'.semiOf low) ∧ tree.Detour g (s'.semiOf low) w := by
  by_cases same : low = w
  · exact Or.inl same
  · right
    rw [considered.semi_eq low same]
    by_cases small : tree.numberOf v ≤ limit
    · obtain rfl := itself small
      rw [handled.untouched low small]
      exact ⟨reached, .edge edge⟩
    · obtain ⟨above, more⟩ := beyond (by omega)
      have semi := handled.done low more
      have rest := (Detour.edge edge).from_above genuine above (by omega)
      exact ⟨semi.numbered, semi.detour.trans (by omega) rest⟩

/-- One more source is considered when the semidominator has sunk to what the source demands. -/
theorem Considered.extend (considered : Considered s s' g tree limit w seen)
    {s'' : Semidominators} (consistent : s''.Consistent g tree limit)
    (waiting : s''.waiting = s'.waiting) (dominator : s''.dominator = s'.dominator)
    (others : ∀ m, m ≠ w → s''.semiOf m = s'.semiOf m)
    (lowered : tree.numberOf (s''.semiOf w) ≤ tree.numberOf (s'.semiOf w))
    (detour : s''.semiOf w = s'.semiOf w ∨
      0 < tree.numberOf (s''.semiOf w) ∧ tree.Detour g (s''.semiOf w) w)
    (source : 0 < tree.numberOf v → tree.numberOf v ≤ limit →
      tree.numberOf (s''.semiOf w) ≤ tree.numberOf v)
    (higher : ∀ u, tree.Above u v → limit < tree.numberOf u →
      tree.numberOf (s''.semiOf w) ≤ tree.numberOf (s.semiOf u)) :
    Considered s s'' g tree limit w (seen ++ [v]) := by
  refine ⟨consistent, waiting.trans considered.waiting_eq,
    dominator.trans considered.dominator_eq,
    fun m other => (others m other).trans (considered.semi_eq m other),
    Nat.le_trans lowered considered.number_le, ?_, fun u member numbered small => ?_,
    fun u member a above beyond => ?_⟩
  · rcases detour with same | leads
    · rw [same]
      exact considered.detour
    · exact Or.inr leads
  · rcases List.mem_append.mp member with old | new
    · exact Nat.le_trans lowered (considered.sources u old numbered small)
    · obtain rfl := List.mem_singleton.mp new
      exact source numbered small
  · rcases List.mem_append.mp member with old | new
    · exact Nat.le_trans lowered (considered.higher u old a above beyond)
    · obtain rfl := List.mem_singleton.mp new
      exact higher a above beyond

theorem Considered.step (considered : Considered s s' g tree limit w seen)
    (handled : s.Handled g tree limit) (genuine : tree.Genuine g entry) (positive : 0 < limit)
    (number : tree.numberOf w = limit) (edge : w ∈ g.successors v) :
    ∃ s'', considerEdge tree w s' v = .ok s'' ∧
      Considered s s'' g tree limit w (seen ++ [v]) := by
  obtain ⟨s'', run, consistent, waiting, dominator, others, unreached, reached⟩ :=
    considered.toConsistent.considerEdge genuine positive (Nat.le_of_eq number) edge
  refine ⟨s'', run, ?_⟩
  by_cases outside : tree.numberOf v = 0
  · have same := unreached outside
    refine considered.extend consistent waiting dominator others
      (Nat.le_of_eq (congrArg tree.numberOf same)) (Or.inl same) (fun numbered => ?_)
      fun u above beyond => ?_
    · omega
    · have bound := genuine.number_le above
      omega
  · have inside : 0 < tree.numberOf v := Nat.pos_iff_ne_zero.mpr outside
    obtain ⟨low, semi, itself, best⟩ := reached inside
    have candidate := considered.candidate handled genuine number edge inside itself
      (fun beyond => ⟨(best beyond).1, (best beyond).2.1⟩)
    have lowered : tree.numberOf (s''.semiOf w) ≤ tree.numberOf (s'.semiOf w) ∧
        tree.numberOf (s''.semiOf w) ≤ tree.numberOf (s'.semiOf low) := by
      unfold rankOf at semi
      rw [semi]
      split <;> omega
    refine considered.extend consistent waiting dominator others lowered.1 ?_
      (fun _ small => ?_) fun a above beyond => ?_
    · rw [semi]
      split
      · exact candidate.imp_left fun same => by rw [same]
      · exact Or.inl rfl
    · obtain rfl := itself small
      refine Nat.le_trans lowered.2 ?_
      by_cases same : low = w
      · rw [same]
        exact considered.number_le
      · refine Nat.le_of_eq ?_
        rw [considered.semi_eq low same, handled.untouched low small]
    · have bound := genuine.number_le above
      have lowest := (best (by omega)).2.2 a above beyond
      unfold rankOf at lowest
      rw [considered.semi_eq a (by rintro rfl; omega)] at lowest
      exact Nat.le_trans lowered.2 lowest

/-- Once all edges into a node have been considered, its semidominator is found. -/
theorem Considered.semidominates
    (considered : Considered s s' g tree limit w (g.predecessors w))
    (handled : s.Handled g tree limit) (genuine : tree.Genuine g entry)
    (number : tree.numberOf w = limit) (below : 1 < limit) :
    tree.Semidominates g (s'.semiOf w) w := by
  obtain ⟨p, _, edge, numbered, less⟩ := genuine.parent_some w (by omega)
  have atParent := considered.sources p (Graph.mem_successors_iff.mp edge) numbered (by omega)
  have leads := considered.detour.resolve_left fun same => by
    rw [same] at atParent
    omega
  have done : ∀ u, tree.numberOf w < tree.numberOf u → tree.Semidominates g (s.semiOf u) u :=
    fun u more => handled.done u (by omega)
  refine genuine.semidominates done (by omega) leads.1 leads.2 ?_ ?_
  · intro v source numbered small
    exact considered.sources v (Graph.mem_successors_iff.mp source) numbered (by omega)
  · intro v u source more above
    exact considered.higher v (Graph.mem_successors_iff.mp source) u above (by omega)

theorem Handled.considered (handled : s.Handled g tree limit) (number : tree.numberOf w = limit) :
    Considered s s g tree limit w [] := by
  have same := handled.untouched w (Nat.le_of_eq number)
  exact ⟨handled.toConsistent, rfl, rfl, fun _ _ => rfl, Nat.le_of_eq (by rw [same]),
    Or.inl same, by simp, by simp⟩

theorem Handled.consider (handled : s.Handled g tree limit) (genuine : tree.Genuine g entry)
    (number : tree.numberOf w = limit) (below : 1 < limit) :
    ∃ s', (g.predecessors w).foldlM (considerEdge tree w) s = .ok s' ∧
      Considered s s' g tree limit w (g.predecessors w) ∧
      tree.Semidominates g (s'.semiOf w) w := by
  obtain ⟨s', run, considered⟩ := foldlM_ok (considerEdge tree w) (g.predecessors w) s
    (fun seen s' => Considered s s' g tree limit w seen) (handled.considered number)
    fun _ v _ s' split considered => considered.step handled genuine (by omega) number
      (Graph.mem_successors_iff.mpr (by simp [split]))
  exact ⟨s', run, considered, considered.semidominates handled genuine number below⟩

end Handle

end Semidominators

end ReachingValues
