import Mathlib.Data.List.Induction
import ReachingValues.Proofs.Graph.Search

/-!
The search that an enumeration with a stack stands in for: a node is visited, and then each of its
successors, in the order in which they are listed, if it has not been visited by then. Whatever has
been visited, the next node is the first unvisited successor of the latest node that has one.
-/

namespace ReachingValues

namespace Graph

variable {α : Type} {g : Graph α} {start n t x y : Node}
  {unvisited targets front back visits : List Node}

/-- What is left of some nodes when others have been visited. -/
def without (unvisited visited : List Node) : List Node := unvisited.filter (· ∉ visited)

theorem mem_without : n ∈ without unvisited visits ↔ n ∈ unvisited ∧ n ∉ visits := by
  simp [without]

theorem without_without {one other : List Node} :
    without (without unvisited one) other = without unvisited (one ++ other) := by
  simp [without, List.filter_filter, Bool.and_comm]

theorem without_cons :
    without unvisited (t :: visits) = (without unvisited visits).filter (· != t) := by
  simp [without, List.filter_filter, bne, beq_eq_decide]

theorem length_without_lt (fresh : t ∈ unvisited) (visited : t ∈ visits) :
    (without unvisited visits).length < unvisited.length :=
  List.length_filter_lt_length_iff_exists.mpr ⟨t, fresh, by simpa using visited⟩

/-- The nodes that are visited from the targets on, one target after the other. -/
def recursionFrom (g : Graph α) (unvisited targets : List Node) : List Node :=
  match targets with
  | [] => []
  | t :: rest =>
    if t ∈ unvisited then
      let below := g.recursionFrom (without unvisited [t]) (g.successors t)
      t :: (below ++ g.recursionFrom (without unvisited (t :: below)) rest)
    else g.recursionFrom unvisited rest
termination_by (unvisited.length, targets.length)
decreasing_by
  · exact Prod.Lex.left _ _ (length_without_lt ‹_› List.mem_cons_self)
  · exact Prod.Lex.left _ _ (length_without_lt ‹_› List.mem_cons_self)
  · exact Prod.Lex.right _ (Nat.lt_succ_self _)

/-- The order in which a recursive search from `start` visits the nodes; none if `start` is not in
the graph. -/
def recursion (g : Graph α) (start : Node) : List Node := g.recursionFrom g.nodes [start]

theorem recursionFrom_subset : g.recursionFrom unvisited targets ⊆ unvisited := by
  fun_induction recursionFrom g unvisited targets
  case case1 => exact List.nil_subset _
  case case2 unvisited t rest fresh below ihBelow ihRest =>
    refine List.cons_subset.mpr ⟨fresh, List.append_subset.mpr ⟨fun n member => ?_,
      fun n member => ?_⟩⟩
    · exact (mem_without.mp (ihBelow member)).1
    · exact (mem_without.mp (ihRest member)).1
  case case3 unvisited t rest old ih => exact ih

theorem recursionFrom_nodup : (g.recursionFrom unvisited targets).Nodup := by
  fun_induction recursionFrom g unvisited targets
  case case1 => exact List.nodup_nil
  case case2 unvisited t rest fresh below ihBelow ihRest =>
    have apart : ∀ n ∈ g.recursionFrom (without unvisited (t :: below)) rest, n ∉ t :: below :=
      fun n member => (mem_without.mp (recursionFrom_subset member)).2
    refine List.nodup_cons.mpr ⟨fun again => ?_, List.nodup_append.mpr ⟨ihBelow, ihRest, ?_⟩⟩
    · rcases List.mem_append.mp again with inner | outer
      · exact (mem_without.mp (recursionFrom_subset inner)).2 List.mem_cons_self
      · exact apart t outer List.mem_cons_self
    · rintro n inner m outer rfl
      exact apart n outer (List.mem_cons_of_mem _ inner)
  case case3 unvisited t rest old ih => exact ih

/-- None of the targets is left, and nothing is left that a visited node has an edge to. -/
structure Exhausts (g : Graph α) (unvisited targets visits : List Node) : Prop where
  targets : ∀ t ∈ targets, t ∈ unvisited → t ∈ visits
  closed : ∀ n ∈ visits, ∀ t ∈ g.successors n, t ∈ unvisited → t ∈ visits

/-- With the node itself, what has been visited below it is closed under edges. -/
theorem Exhausts.closed_cons {below : List Node}
    (exhausts : g.Exhausts (without unvisited [t]) (g.successors t) below) :
    ∀ n ∈ t :: below, ∀ m ∈ g.successors n, m ∈ unvisited → m ∈ t :: below := by
  intro n visited m edge left
  by_cases same : m = t
  · exact same ▸ List.mem_cons_self
  · have still : m ∈ without unvisited [t] := mem_without.mpr ⟨left, by simpa using same⟩
    rcases List.mem_cons.mp visited with rfl | lower
    · exact List.mem_cons_of_mem _ (exhausts.targets m edge still)
    · exact List.mem_cons_of_mem _ (exhausts.closed n lower m edge still)

theorem recursionFrom_exhausts :
    g.Exhausts unvisited targets (g.recursionFrom unvisited targets) := by
  fun_induction recursionFrom g unvisited targets
  case case1 => exact ⟨by simp, by simp⟩
  case case2 unvisited t rest fresh below ihBelow ihRest =>
    have early := ihBelow.closed_cons
    rw [← List.cons_append]
    refine ⟨fun m target left => ?_, fun n visited m edge left => ?_⟩
    all_goals
      rw [List.mem_append, Decidable.or_iff_not_imp_left]
      intro late
    · have inRest : m ∈ rest := (List.mem_cons.mp target).resolve_left fun same =>
        late (same ▸ List.mem_cons_self)
      exact ihRest.targets m inRest (mem_without.mpr ⟨left, late⟩)
    · rcases List.mem_append.mp visited with before | outer
      · exact absurd (early n before m edge left) late
      · exact ihRest.closed n outer m edge (mem_without.mpr ⟨left, late⟩)
  case case3 unvisited t rest old ih =>
    refine ⟨fun m target left => ?_, ih.closed⟩
    have inRest : m ∈ rest := (List.mem_cons.mp target).resolve_left fun same => old (same ▸ left)
    exact ih.targets m inRest left

theorem recursionFrom_reached (reached : ∀ t ∈ targets, g.Reaches start t)
    (member : n ∈ g.recursionFrom unvisited targets) : g.Reaches start n := by
  fun_induction recursionFrom g unvisited targets
  case case1 => cases member
  case case2 unvisited t rest fresh below ihBelow ihRest =>
    have atTarget := reached t List.mem_cons_self
    rcases List.mem_cons.mp member with rfl | member
    · exact atTarget
    · rcases List.mem_append.mp member with inner | outer
      · exact ihBelow (fun m edge => atTarget.step edge) inner
      · exact ihRest (fun m later => reached m (List.mem_cons_of_mem _ later)) outer
  case case3 unvisited t rest old ih =>
    exact ih (fun m later => reached m (List.mem_cons_of_mem _ later)) member

/-- In a list without repetitions a node stands in one place. -/
theorem not_mem_of_split (once : (front ++ y :: back).Nodup) : y ∉ front ∧ y ∉ back := by
  have fresh : y ∉ front ++ back := (List.nodup_cons.mp (List.perm_middle.nodup once)).1
  rwa [List.mem_append, not_or] at fresh

/-- What comes first comes before everything else. -/
theorem first_mem_of_split {first : Node} {rest : List Node}
    (split : front ++ y :: back = first :: rest) (later : front ≠ []) : first ∈ front := by
  obtain ⟨head, front, rfl⟩ := List.exists_cons_of_ne_nil later
  obtain ⟨rfl, _⟩ := List.cons.inj split
  exact List.mem_cons_self

/-- A place in two joined lists is a place in the first or in the second. -/
theorem split_append {left right : List Node} (split : left ++ right = front ++ y :: back) :
    (∃ rest, left = front ++ y :: rest) ∨
      ∃ rest, front = left ++ rest ∧ right = rest ++ y :: back := by
  rcases List.append_eq_append_iff.mp split with ⟨rest, longer, cut⟩ | ⟨rest, cut, longer⟩
  · exact Or.inr ⟨rest, longer, cut⟩
  · cases rest with
    | nil =>
      rw [List.append_nil] at cut
      exact Or.inr ⟨[], by rw [cut, List.append_nil], longer.symm⟩
    | cons first rest =>
      obtain ⟨rfl, _⟩ := List.cons.inj longer
      exact Or.inl ⟨rest, cut⟩

/-- What is visited next, seen from the latest visited node back to the earliest and then from the
targets, is the first node that is left. -/
theorem recursionFrom_next (split : g.recursionFrom unvisited targets = front ++ y :: back) :
    (front.reverse.flatMap g.successors ++ targets).find? (· ∈ without unvisited front) =
      some y := by
  fun_induction recursionFrom g unvisited targets generalizing front back
  case case1 => simp at split
  case case2 unvisited t rest fresh below ihBelow ihRest =>
    rcases List.cons_eq_append_iff.mp split with ⟨rfl, same⟩ | ⟨front, rfl, later⟩
    · obtain ⟨rfl, _⟩ := List.cons.inj same
      simp [mem_without, fresh]
    rw [List.find?_append]
    rcases split_append later with ⟨rest', cut⟩ | ⟨front, rfl, cut⟩
    · -- the node is found below the target, or it is one of its successors
      have next := ihBelow cut
      rw [without_without, List.singleton_append] at next
      rw [List.reverse_cons, List.flatMap_append, List.flatMap_singleton, next, Option.some_or]
    · -- nothing is left below the target
      have next := ihRest cut
      rw [without_without, List.find?_append] at next
      have none : ((t :: below).reverse.flatMap g.successors).find?
          (· ∈ without unvisited (t :: below ++ front)) = none := by
        refine List.find?_eq_none.mpr fun m listed => ?_
        obtain ⟨n, visited, edge⟩ := List.mem_flatMap.mp listed
        have found := recursionFrom_exhausts.closed_cons n (List.mem_reverse.mp visited) m edge
        simp only [decide_eq_true_eq, mem_without, not_and, Decidable.not_not]
        exact fun left => List.mem_append_left front (found left)
      have old : t ∉ without unvisited (t :: below ++ front) := by simp [mem_without]
      rw [← List.cons_append, List.reverse_append, List.flatMap_append, List.find?_append, none,
        Option.or_none, List.find?_cons_of_neg (by simpa using old), next]
  case case3 unvisited t rest old ih =>
    have next := ih split
    rw [List.find?_append] at next ⊢
    rwa [List.find?_cons_of_neg (by simp [mem_without, old])]

theorem recursion_nodup : (g.recursion start).Nodup := recursionFrom_nodup

theorem recursion_of_outside (outside : ¬ g.contains start) : g.recursion start = [] := by
  have unknown : start ∉ g.nodes := by rwa [nodes, List.mem_range, ← contains_iff]
  rw [recursion, recursionFrom, if_neg unknown, recursionFrom]

theorem exists_recursion_eq_cons (inside : g.contains start) :
    ∃ rest, g.recursion start = start :: rest := by
  have known : start ∈ g.nodes := List.mem_range.mpr (contains_iff.mp inside)
  exact ⟨_, by rw [recursion, recursionFrom, if_pos known]⟩

theorem mem_recursion_iff : n ∈ g.recursion start ↔ g.Reaches start n := by
  by_cases inside : g.contains start
  · constructor
    · refine recursionFrom_reached fun t target => ?_
      obtain rfl := List.mem_singleton.mp target
      exact .refl inside
    · intro reach
      have done : g.Exhausts g.nodes [start] (g.recursion start) := recursionFrom_exhausts
      have known : ∀ m, g.contains m → m ∈ g.nodes := fun m member =>
        List.mem_range.mpr (contains_iff.mp member)
      refine reach.induct (fun m t member edge => ?_) ?_
      · exact done.closed m member t edge (known t (contains_of_mem_successors edge).2)
      · exact done.targets start List.mem_cons_self (known start inside)
  · rw [recursion_of_outside inside]
    exact ⟨fun member => absurd member List.not_mem_nil,
      fun reach => absurd reach.contains.1 inside⟩

/-- After the start every node comes from the latest visited node that has an unvisited successor,
and is the first of these. -/
theorem exists_next (split : g.recursion start = front ++ y :: back) (later : front ≠ []) :
    ∃ early u late passed rest, front = early ++ u :: late ∧
      (∀ v ∈ late, g.successors v ⊆ front) ∧
      g.successors u = passed ++ y :: rest ∧ passed ⊆ front := by
  have known : ∀ {m}, g.contains m → m ∉ front → m ∈ without g.nodes front := fun inside fresh =>
    mem_without.mpr ⟨List.mem_range.mpr (contains_iff.mp inside), fresh⟩
  have first : start ∈ front := by
    have reached := mem_recursion_iff.mp (split ▸ List.mem_append_right front List.mem_cons_self)
    obtain ⟨rest, starts⟩ := exists_recursion_eq_cons reached.contains.1
    exact first_mem_of_split (split.symm.trans starts) later
  have next := recursionFrom_next split
  rw [List.find?_append, List.find?_singleton, if_neg (by simp [mem_without, first]),
    Option.or_none, List.find?_flatMap, List.findSome?_eq_some_iff] at next
  obtain ⟨late, u, early, turned, found, none⟩ := next
  obtain ⟨left, passed, rest, successors, taken⟩ := List.find?_eq_some_iff_append.mp found
  refine ⟨early.reverse, u, late.reverse, passed, rest, ?_, fun v member t edge => ?_, successors,
    fun t member => ?_⟩
  · rw [← front.reverse_reverse, turned]
    simp
  · have closed := List.find?_eq_none.mp (none v (List.mem_reverse.mp member)) t edge
    have inside := (contains_of_mem_successors edge).2
    exact Decidable.not_not.mp fun fresh => closed (by simpa using known inside fresh)
  · have inside : g.contains t := by
      refine (contains_of_mem_successors (s := u) ?_).2
      exact successors ▸ List.mem_append_left _ member
    have visited := taken t member
    exact Decidable.not_not.mp fun fresh => by simp [known inside fresh] at visited

/-- Whatever a list has between a node and one of its successors is found from successors that are
listed before that one, on paths through that part of the list. -/
def Nested (g : Graph α) (visits : List Node) : Prop :=
  ∀ front u within y back, visits = front ++ u :: (within ++ y :: back) → y ∈ g.successors u →
    ∀ x ∈ within, ∃ s ∈ (g.successors u).takeWhile (· != y),
      ∃ path, g.Path s path x ∧ path ⊆ within

theorem takeWhile_passed {passed rest : List Node} (fresh : y ∉ passed) :
    (passed ++ rest).takeWhile (· != y) = passed ++ rest.takeWhile (· != y) :=
  List.takeWhile_append_of_pos fun n member => by
    simpa using fun same : n = y => fresh (same ▸ member)

/-- As long as a successor of a node is left, all that is visited after the node is found from it. -/
theorem found_of_left {u : Node} {within : List Node}
    (split : g.recursion start = front ++ u :: (within ++ back)) (left : y ∈ back)
    (edge : y ∈ g.successors u) :
    ∀ x ∈ within, ∃ s ∈ (g.successors u).takeWhile (· != y),
      ∃ path, g.Path s path x ∧ path ⊆ within := by
  induction within using List.reverseRecOn generalizing back with
  | nil => simp
  | append_singleton earlier z ih =>
    rw [List.append_assoc, List.singleton_append] at split
    have cut : g.recursion start = (front ++ u :: earlier) ++ z :: back := by simpa using split
    have once : ((front ++ u :: earlier) ++ z :: back).Nodup := cut ▸ recursion_nodup
    have fresh : y ∉ front ++ u :: earlier := fun early =>
      (List.nodup_append.mp once).2.2 y early y (List.mem_cons_of_mem _ left) rfl
    have other : z ≠ y := by
      rintro rfl
      exact (not_mem_of_split once).2 left
    obtain ⟨early, v, late, passed, rest, visited, closed, successors, taken⟩ :=
      exists_next cut (by simp)
    have unpassed : u ∉ late := fun after => fresh (closed u after edge)
    have atZ : ∃ s ∈ (g.successors u).takeWhile (· != y),
        ∃ path, g.Path s path z ∧ path ⊆ earlier ++ [z] := by
      have toZ : z ∈ g.successors v := successors ▸ List.mem_append_right _ List.mem_cons_self
      rcases split_append visited with ⟨between, rfl⟩ | ⟨between, _, cut⟩
      · -- the node itself would stand behind the latest one that has a successor left
        rw [List.append_assoc, List.cons_append, List.append_cancel_left_eq] at visited
        obtain ⟨_, rfl⟩ := List.cons.inj visited
        exact absurd (List.mem_append_right _ List.mem_cons_self) unpassed
      · rcases List.cons_eq_append_iff.mp cut with ⟨_, same⟩ | ⟨between, _, same⟩
        · obtain ⟨rfl, _⟩ := List.cons.inj same
          refine ⟨z, ?_, [z], .here (contains_of_mem_successors toZ).2, by simp⟩
          rw [successors, takeWhile_passed fun member => fresh (taken member),
            List.takeWhile_cons_of_pos (by simpa using other)]
          exact List.mem_append_right _ List.mem_cons_self
        · have member : v ∈ earlier := same ▸ List.mem_append_right _ List.mem_cons_self
          obtain ⟨s, listed, path, toV, inside⟩ :=
            ih split (List.mem_cons_of_mem _ left) v member
          exact ⟨s, listed, path ++ [z], toV.concat toZ, List.append_subset.mpr
            ⟨fun n on => List.mem_append_left _ (inside on), List.subset_append_right _ _⟩⟩
    intro x member
    rcases List.mem_append.mp member with old | last
    · obtain ⟨s, listed, path, toX, inside⟩ := ih split (List.mem_cons_of_mem _ left) x old
      exact ⟨s, listed, path, toX, fun n on => List.mem_append_left _ (inside on)⟩
    · exact List.mem_singleton.mp last ▸ atZ

/-- A set that holds the start, and of the nodes of a path those that its members have edges to, holds
the end. -/
theorem Path.induct {holds : Node → Prop} {s : Node} {path : List Node} (leads : g.Path s path t)
    (closed : ∀ m n, holds m → n ∈ g.successors m → n ∈ path → holds n) (atStart : holds s) :
    holds t := by
  induction leads with
  | here _ => exact atStart
  | step edge rest ih =>
    refine ih (fun m n atM edge on => closed m n atM edge (List.mem_cons_of_mem _ on)) ?_
    exact closed _ _ atStart edge (List.mem_cons_of_mem _ rest.source_mem)

theorem recursion_nested : g.Nested (g.recursion start) :=
  fun _ _ _ _ _ split edge => found_of_left split List.mem_cons_self edge

/-- Two lists of one length are the same if there is no first place where they differ. -/
theorem eq_of_agree {one other : List Node} (size : one.length = other.length)
    (agree : ∀ front x y back back', one = front ++ x :: back → other = front ++ y :: back' →
      x = y) : one = other := by
  induction one generalizing other with
  | nil => exact (List.length_eq_zero_iff.mp size.symm).symm
  | cons x rest ih =>
    obtain ⟨y, rest', rfl⟩ := List.exists_cons_of_length_eq_add_one size.symm
    obtain rfl := agree [] x y rest rest' rfl rfl
    rw [ih (Nat.succ.inj size) fun front x' y' back back' split split' =>
      agree (x :: front) x' y' back back' (by rw [split]; rfl) (by rw [split']; rfl)]

/-- No other order of the same nodes is nested. -/
theorem eq_recursion_of_nested (same : visits.Perm (g.recursion start))
    (first : visits.head? = (g.recursion start).head?) (nested : g.Nested visits) :
    visits = g.recursion start := by
  refine eq_of_agree same.length_eq fun front x y back back' atX atY => ?_
  refine Classical.byContradiction fun differ => ?_
  have later : front ≠ [] := by
    rintro rfl
    rw [atX, atY] at first
    exact differ (Option.some.inj first)
  obtain ⟨early, u, late, passed, rest, rfl, closed, successors, taken⟩ := exists_next atY later
  have once : ((early ++ u :: late) ++ x :: back).Nodup := by
    rw [← atX]
    exact same.symm.nodup recursion_nodup
  have apart : ∀ n ∈ early ++ u :: late, n ∉ x :: back := fun n old new =>
    (List.nodup_append.mp once).2.2 n old n new rfl
  have fresh : y ∉ early ++ u :: late := (not_mem_of_split (atY ▸ recursion_nodup)).1
  have waiting : y ∈ back := by
    have member : y ∈ (early ++ u :: late) ++ x :: back := by
      rw [← atX, same.mem_iff, atY]
      exact List.mem_append_right _ List.mem_cons_self
    rcases List.mem_cons.mp ((List.mem_append.mp member).resolve_left fresh) with rfl | behind
    · exact absurd rfl differ
    · exact behind
  obtain ⟨mid, rest', rfl⟩ := List.append_of_mem waiting
  obtain ⟨s, listed, path, toX, inside⟩ := nested early u (late ++ x :: mid) y rest'
    (by rw [atX]; simp) (successors ▸ List.mem_append_right _ List.mem_cons_self) x (by simp)
  rw [successors, takeWhile_passed fun member => fresh (taken member),
    List.takeWhile_cons_of_neg (by simp), List.append_nil] at listed
  -- the path starts behind `u`, among nodes that have no successor left, and cannot go on to `x`
  have behind : ∀ n ∈ path, n ∈ early ++ u :: late → n ∈ late := fun n on old =>
    (List.mem_append.mp (inside on)).resolve_right fun new => apart n old
      (List.mem_cons.mpr ((List.mem_cons.mp new).imp_right (List.mem_append_left _)))
  have atX : x ∈ late := by
    refine toX.induct (fun m n atM edge on => behind n on (closed m atM edge)) ?_
    exact behind s toX.source_mem (taken listed)
  exact apart x (by simp [atX]) List.mem_cons_self

end Graph

end ReachingValues
