import Mathlib.Data.Set.Function
import Mathlib.Order.Interval.Set.Defs
import ReachingValues.Proofs.Dominators.Detours
import ReachingValues.Proofs.Graph.EdgeLists

/-!
The search with a stack of bare nodes. Whoever puts a node on the stack is written down as the
parent of that node, over whatever stood there. The parent that stands when the node gets its number
is the one written last, and that is the one whose copy lies on top. So the tree is the same as when
each copy carries its own parent, and it is a depth-first tree of what the entry reaches.
-/

namespace ReachingValues

namespace SpanningTree

variable {α : Type} {g : Graph α} {entry : Node} {s later final : SpanningTree}

/-- Gives `n` the next number and leaves its parent as it stands. -/
def enumerate (s : SpanningTree) (n : Node) (h : n < s.number.size) : SpanningTree where
  number := s.number.set n (s.order.size + 1)
  parent := s.parent
  order := s.order.push n
  parent_size := by simp [s.parent_size]

/-- Writes `above` down as the parent of `n`. -/
def overwrite (s : SpanningTree) (above n : Node) : Except Fault SpanningTree :=
  if h : n < s.parent.size then
    .ok { s with
      parent := s.parent.set n (some above)
      parent_size := by simp [s.parent_size] }
  else .error (.indexOutOfRange n s.parent.size)

/-- Puts a successor of `above` on the stack, unless it has a number. -/
def offer (above : Node) (pending : SpanningTree × List Node) (n : Node) :
    Except Fault (SpanningTree × List Node) := do
  if (← fetch pending.1.number n) = 0 then
    return (← pending.1.overwrite above n, n :: pending.2)
  else return pending

section Offers

variable {above n : Node} {stack stack' nodes : List Node}

theorem offer_ok (above : Node) (stack : List Node) (inside : n < s.number.size) :
    ∃ later, offer above (s, stack) n =
        .ok (later, if s.numberOf n = 0 then n :: stack else stack) ∧
      later.number = s.number ∧ later.order = s.order ∧
      ∀ m, later.parentOf m = if m = n ∧ s.numberOf n = 0 then some above else s.parentOf m := by
  have room : n < s.parent.size := by rw [s.parent_size]; exact inside
  have known : fetch s.number n = .ok (s.numberOf n) := fetch_eq inside 0
  rw [offer, known, ok_bind]
  by_cases unnumbered : s.numberOf n = 0
  · simp only [unnumbered, if_true, overwrite, room, dif_pos, ok_bind, pure_eq_ok, and_true]
    refine ⟨_, rfl, rfl, rfl, fun m => ?_⟩
    by_cases same : m = n
    · subst same; simp [parentOf, room]
    · simp [parentOf, same, Ne.symm same]
  · exact ⟨s, by simp [unnumbered], rfl, rfl, fun m => by simp [unnumbered]⟩

/-- Of the offered nodes those without a number lie on top, the last one first, and `above` is
written down as their parent. -/
theorem offers_ok (above : Node) (stack : List Node) (inside : ∀ n ∈ nodes, n < s.number.size) :
    ∃ later, nodes.foldlM (offer above) (s, stack) =
        .ok (later, (nodes.filter (s.numberOf · = 0)).reverse ++ stack) ∧
      later.number = s.number ∧ later.order = s.order ∧
      ∀ m, later.parentOf m =
        if m ∈ nodes ∧ s.numberOf m = 0 then some above else s.parentOf m := by
  obtain ⟨⟨later, pending⟩, run, stacked, number, order, parents⟩ :=
    foldlM_ok (offer above) nodes (s, stack)
      (fun done pending =>
        pending.2 = (done.filter (s.numberOf · = 0)).reverse ++ stack ∧
        pending.1.number = s.number ∧ pending.1.order = s.order ∧
        ∀ m, pending.1.parentOf m =
          if m ∈ done ∧ s.numberOf m = 0 then some above else s.parentOf m)
      ⟨rfl, rfl, rfl, by simp⟩ (by
        rintro done n rest ⟨t, waiting⟩ split ⟨rfl, number, order, parents⟩
        have numbers : ∀ m, t.numberOf m = s.numberOf m := fun m => by
          rw [numberOf, numberOf, number]
        have room : n < t.number.size := by
          rw [number]
          exact inside n (by simp [split])
        obtain ⟨next, run, number', order', parents'⟩ := offer_ok above _ room
        refine ⟨_, run, ?_, number'.trans number, order'.trans order, fun m => ?_⟩
        · by_cases unnumbered : s.numberOf n = 0 <;> simp [numbers, unnumbered]
        · rw [parents', parents, numbers]
          by_cases same : m = n
          · subst same
            by_cases unnumbered : s.numberOf m = 0 <;> simp [unnumbered]
          · simp [same])
  exact ⟨later, by rw [run, ← stacked], number, order, parents⟩

/-- No more nodes are put on the stack than are offered. -/
theorem length_of_offers (run : nodes.foldlM (offer above) (s, stack) = .ok (later, stack')) :
    later.number = s.number ∧ stack'.length ≤ nodes.length + stack.length := by
  refine holds_of_foldlM (fun done pending => pending.1.number = s.number ∧
    pending.2.length ≤ done.length + stack.length) ⟨rfl, by simp⟩ ?_ run
  rintro done n ⟨t, waiting⟩ ⟨t', waiting'⟩ ⟨number, bound⟩ step
  obtain ⟨k, _, step⟩ := bind_eq_ok_iff.mp step
  split at step
  · obtain ⟨u, written, step⟩ := bind_eq_ok_iff.mp step
    obtain ⟨rfl, rfl⟩ := Prod.mk.inj (Except.ok.inj step)
    unfold overwrite at written
    split at written
    · obtain rfl := Except.ok.inj written
      refine ⟨number, ?_⟩
      simp only [List.length_append, List.length_cons] at bound ⊢
      omega
    · cases written
  · obtain ⟨rfl, rfl⟩ := Prod.mk.inj (Except.ok.inj step)
    refine ⟨number, ?_⟩
    simp only [List.length_append] at bound ⊢
    omega

end Offers

theorem remainingCost_congr (same : later.number = s.number) :
    later.remainingCost g = s.remainingCost g := by
  unfold remainingCost isUnnumbered
  rw [same]

/-- Continues the search from a stack of nodes, whose parents are written down already. -/
def exploreOverwriting (g : Graph α) (s : SpanningTree) (stack : List Node) :
    Except Fault SpanningTree :=
  match stack with
  | [] => .ok s
  | n :: rest =>
    if h : n < s.number.size then
      if unnumbered : s.number[n] = 0 then
        match offered : (g.successors n).foldlM (offer n) (s.enumerate n h, rest) with
        | .error fault => .error fault
        | .ok (later, stack) => exploreOverwriting g later stack
      else exploreOverwriting g s rest
    else .error (.indexOutOfRange n s.number.size)
termination_by s.remainingCost g + stack.length
decreasing_by
  · have paid := remainingCost_place g s none h unnumbered
    obtain ⟨number, bound⟩ := length_of_offers offered
    have same : later.remainingCost g = (s.place none n h).remainingCost g :=
      remainingCost_congr number
    simp only [List.length_cons]
    omega
  · simp

/-- The spanning tree of the nodes reachable from `entry`, found with a stack of bare nodes. -/
def ofGraphOverwriting (g : Graph α) (entry : Node) : Except Fault SpanningTree :=
  exploreOverwriting g (unexplored g.nodeCount) [entry]

/-- The node that put the topmost copy of `n` on a stack. -/
def pusher (stack : List (Option Node × Node)) (n : Node) : Option Node :=
  (stack.find? (·.2 == n)).bind (·.1)

section Pusher

variable {above : Option Node} {n m : Node} {nodes : List Node} {stack : List (Option Node × Node)}

theorem pusher_cons : pusher ((above, n) :: stack) m = if n = m then above else pusher stack m := by
  by_cases same : n = m <;> simp [pusher, same]

theorem pusher_append : pusher ((nodes.map (some n, ·)).reverse ++ stack) m =
    if m ∈ nodes then some n else pusher stack m := by
  induction nodes generalizing stack with
  | nil => simp
  | cons first rest ih =>
    rw [List.map_cons, List.reverse_cons, List.append_assoc, List.singleton_append, ih,
      pusher_cons]
    by_cases later : m ∈ rest
    · simp [later]
    · by_cases same : first = m
      · simp [same]
      · simp [later, same, Ne.symm same]

end Pusher

theorem isUnnumbered_place {above : Option Node} {n m : Node} (h : n < s.number.size) :
    (s.place above n h).isUnnumbered m ↔ m ≠ n ∧ s.isUnnumbered m := by
  by_cases same : m = n
  · subst same; simp [isUnnumbered, place, h]
  · simp [isUnnumbered, place, same, Ne.symm same]

theorem isUnnumbered_iff {n : Node} (inside : n < s.number.size) :
    s.isUnnumbered n ↔ s.numberOf n = 0 := by
  simp [isUnnumbered, numberOf, inside]

theorem numberOf_of_isUnnumbered {n : Node} (unnumbered : s.isUnnumbered n) : s.numberOf n = 0 := by
  rw [isUnnumbered, beq_iff_eq] at unnumbered
  rw [numberOf, unnumbered]
  rfl

/-- Two stages that the two searches come to together. The stacks hold the same nodes in the same
order, up to nodes that have a number by now, and a node without a number has the pusher of its
topmost copy written down as its parent. -/
structure Together (later s : SpanningTree) (waiting : List Node)
    (stack : List (Option Node × Node)) : Prop where
  number_eq : later.number = s.number
  order_eq : later.order = s.order
  inside : ∀ n ∈ waiting, n < s.number.size
  waiting_eq : waiting.filter s.isUnnumbered = (stack.map (·.2)).filter s.isUnnumbered
  parent_eq : ∀ n, later.parentOf n = if s.isUnnumbered n then pusher stack n else s.parentOf n

namespace Together

variable {above : Option Node} {n : Node} {waiting back : List Node}
  {rest : List (Option Node × Node)}

/-- Nodes that have a number are taken from the stack without effect. -/
theorem explore_numbered {front : List Node} {stack : List (Option Node × Node)}
    (together : Together later s (front ++ waiting) stack)
    (numbered : ∀ n ∈ front, ¬ s.isUnnumbered n) :
    exploreOverwriting g later (front ++ waiting) = exploreOverwriting g later waiting ∧
      Together later s waiting stack := by
  induction front with
  | nil => exact ⟨rfl, together⟩
  | cons n front ih =>
    have room : n < later.number.size := by
      rw [together.number_eq]
      exact together.inside n List.mem_cons_self
    have closed := numbered n List.mem_cons_self
    have known : later.number[n] ≠ 0 := fun zero =>
      closed (by simp [isUnnumbered, ← together.number_eq, room, zero])
    have tail : Together later s (front ++ waiting) stack :=
      { together with
        inside := fun m member => together.inside m (List.mem_cons_of_mem _ member)
        waiting_eq := by
          rw [← together.waiting_eq, List.cons_append, List.filter_cons_of_neg closed] }
    obtain ⟨run, rest⟩ := ih tail fun m member => numbered m (List.mem_cons_of_mem _ member)
    refine ⟨?_, rest⟩
    rw [List.cons_append, exploreOverwriting, dif_pos room, dif_neg known]
    exact run

/-- When nothing waits any more, the two searches have found the same tree. -/
theorem eq_of_done (together : Together later s waiting [])
    (bare : ∀ n, s.isUnnumbered n → s.parentOf n = none) : later = s := by
  have parents : ∀ n, later.parentOf n = s.parentOf n := fun n => by
    rw [together.parent_eq]
    split
    · rename_i unnumbered
      exact (bare n unnumbered).symm
    · rfl
  have number := together.number_eq
  have order := together.order_eq
  have size : later.parent.size = s.parent.size := by rw [later.parent_size, s.parent_size, number]
  have parent : later.parent = s.parent := Array.ext size fun i left right => by
    simpa [parentOf, left, right] using parents i
  obtain ⟨_, _, _, _⟩ := later
  obtain ⟨_, _, _, _⟩ := s
  simp only at number order parent
  subst number order parent
  rfl

/-- A copy of a node that has a number does not matter. -/
theorem skip (together : Together later s waiting ((above, n) :: rest))
    (numbered : ¬ s.isUnnumbered n) : Together later s waiting rest where
  number_eq := together.number_eq
  order_eq := together.order_eq
  inside := together.inside
  waiting_eq := by
    have same := together.waiting_eq
    rwa [List.map_cons, List.filter_cons_of_neg numbered] at same
  parent_eq m := by
    rw [together.parent_eq m]
    split
    · rename_i unnumbered
      exact pusher_cons.trans (if_neg (by rintro rfl; exact numbered unnumbered))
    · rfl

/-- The next node gets its number, with the parent written down last, and its successors are put on
both stacks. -/
theorem place (together : Together later s (n :: back) ((above, n) :: rest))
    (size : s.number.size = g.nodeCount) (h : n < s.number.size) (unnumbered : s.isUnnumbered n)
    (room : n < later.number.size) :
    ∃ next, (g.successors n).foldlM (offer n) (later.enumerate n room, back) =
        .ok (next, ((g.successors n).filter ((later.enumerate n room).numberOf · = 0)).reverse ++
          back) ∧
      Together next (s.place above n h)
        (((g.successors n).filter ((later.enumerate n room).numberOf · = 0)).reverse ++ back)
        (((g.successors n).map (some n, ·)).reverse ++ rest) := by
  have numbers : (later.enumerate n room).number = (s.place above n h).number := by
    simp only [enumerate, SpanningTree.place, together.number_eq, together.order_eq]
  have numberOf_eq : ∀ m, (later.enumerate n room).numberOf m = (s.place above n h).numberOf m :=
    fun m => by rw [numberOf, numberOf, numbers]
  have targets : ∀ m ∈ g.successors n, m < (s.place above n h).number.size := fun m edge => by
    simpa [SpanningTree.place, size] using (Graph.lt_nodeCount_of_mem_successors edge).2
  have offerable : ∀ m ∈ g.successors n, m < (later.enumerate n room).number.size := by
    rwa [numbers]
  have waitingRest : back.filter s.isUnnumbered = (rest.map (·.2)).filter s.isUnnumbered := by
    have same := together.waiting_eq
    rw [List.map_cons, List.filter_cons_of_pos unnumbered,
      List.filter_cons_of_pos unnumbered] at same
    exact List.tail_eq_of_cons_eq same
  obtain ⟨next, run, number, order, parents⟩ := offers_ok n back offerable
  refine ⟨next, run, number.trans numbers, ?_, ?_, ?_, fun m => ?_⟩
  · rw [order]
    simp only [enumerate, SpanningTree.place, together.order_eq]
  · intro m member
    rcases List.mem_append.mp member with new | old
    · exact targets m (List.mem_of_mem_filter (List.mem_reverse.mp new))
    · simpa [SpanningTree.place] using together.inside m (List.mem_cons_of_mem _ old)
  · have offered : ((g.successors n).filter ((later.enumerate n room).numberOf · = 0)).filter
        (s.place above n h).isUnnumbered =
          (g.successors n).filter (s.place above n h).isUnnumbered := by
      rw [List.filter_filter]
      refine List.filter_congr fun m _ => ?_
      rw [Bool.and_eq_left_iff_imp, decide_eq_true_eq, numberOf_eq]
      exact numberOf_of_isUnnumbered
    have older : ∀ nodes : List Node, nodes.filter (s.place above n h).isUnnumbered =
        (nodes.filter s.isUnnumbered).filter (s.place above n h).isUnnumbered := fun nodes => by
      rw [List.filter_filter]
      refine List.filter_congr fun m _ => ?_
      rw [eq_comm, Bool.and_eq_left_iff_imp]
      exact fun open' => ((isUnnumbered_place h).mp open').2
    rw [List.filter_append, List.filter_reverse, offered, older back, waitingRest, ← older,
      List.map_append, List.filter_append, List.map_reverse, List.filter_reverse, List.map_map]
    simp [Function.comp_def]
  · have written : (later.enumerate n room).parentOf m = later.parentOf m := rfl
    rw [parents, written, together.parent_eq, numberOf_eq, pusher_append, pusher_cons,
      parentOf_place]
    by_cases same : m = n
    · subst same
      simp [unnumbered, isUnnumbered_place]
    · by_cases still : s.isUnnumbered m
      · have yet : (s.place above n h).isUnnumbered m := (isUnnumbered_place h).mpr ⟨same, still⟩
        simp [numberOf_of_isUnnumbered yet, isUnnumbered_place, same, still, Ne.symm same]
      · have closed : ¬ (s.place above n h).isUnnumbered m := fun unnumbered =>
          still ((isUnnumbered_place h).mp unnumbered).2
        have numbered : ¬ (m ∈ g.successors n ∧ (s.place above n h).numberOf m = 0) :=
          fun bare => closed ((isUnnumbered_iff (targets m bare.1)).mpr bare.2)
        simp only [numbered, closed, still, same, if_false, Bool.false_eq_true]

end Together

/-- From stages that go together the two searches find the same tree. -/
theorem Together.explore {waiting : List Node} {stack : List (Option Node × Node)}
    (together : Together later s waiting stack) (size : s.number.size = g.nodeCount)
    (run : explore g s stack = .ok final)
    (bare : ∀ n, final.isUnnumbered n → final.parentOf n = none) :
    exploreOverwriting g later waiting = .ok final := by
  induction s, stack using explore.induct g generalizing later waiting with
  | case1 s =>
    rw [SpanningTree.explore] at run
    obtain rfl := Except.ok.inj run
    have numbered := List.filter_eq_nil_iff.mp together.waiting_eq
    have same := together.eq_of_done bare
    rw [← List.append_nil waiting] at together ⊢
    rw [(together.explore_numbered numbered).1, exploreOverwriting, same]
  | case2 s above n rest inside unnumbered ih =>
    rw [SpanningTree.explore, dif_pos inside, dif_pos unnumbered] at run
    have still : s.isUnnumbered n := by simp [isUnnumbered, inside, unnumbered]
    have waits := together.waiting_eq
    rw [List.map_cons, List.filter_cons_of_pos still] at waits
    obtain ⟨front, back, rfl, numbered, _⟩ := List.filter_eq_cons_iff.mp waits
    obtain ⟨skipped, together⟩ := together.explore_numbered (g := g) numbered
    have room : n < later.number.size := by rwa [together.number_eq]
    have zero : later.number[n] = 0 := by simpa [together.number_eq] using unnumbered
    obtain ⟨next, offers, again⟩ := together.place size inside still room
    rw [skipped, exploreOverwriting, dif_pos room, dif_pos zero]
    split
    · rename_i failed
      rw [offers] at failed
      cases failed
    · rename_i offered
      obtain ⟨rfl, rfl⟩ := Prod.mk.inj (Except.ok.inj (offers.symm.trans offered))
      exact ih again (by simpa [SpanningTree.place] using size) run
  | case3 s above n rest inside numbered ih =>
    rw [SpanningTree.explore, dif_pos inside, dif_neg numbered] at run
    exact ih (together.skip (by simp [isUnnumbered, inside, numbered])) size run
  | case4 s above n rest outside =>
    rw [SpanningTree.explore, dif_neg outside] at run
    cases run

/-- Overwriting the parents leads to the same tree. -/
theorem ofGraphOverwriting_eq (inside : g.contains entry) :
    ofGraphOverwriting g entry = ofGraph g entry := by
  obtain ⟨t, run, spans⟩ := ofGraph_spans inside
  have start : Together (unexplored g.nodeCount) (unexplored g.nodeCount) [entry]
      [(none, entry)] := by
    refine ⟨rfl, rfl, ?_, rfl, fun n => ?_⟩
    · simpa [unexplored] using Graph.contains_iff.mp inside
    · rw [parentOf_unexplored]
      by_cases same : entry = n <;> simp [pusher, same]
  rw [run]
  refine start.explore (by simp [unexplored]) run fun n unnumbered => ?_
  have zero := numberOf_of_isUnnumbered unnumbered
  exact spans.parent_none n (by omega)

/-- The search gives the nodes that the entry reaches the numbers from 1 on, one after another,
beginning with the entry. The parent of any other of them has an edge to it and a lower number, and
an edge to a higher number leads to a descendant. -/
theorem overwriting_search_spans (inside : g.contains entry) :
    ∃ t : SpanningTree, ofGraphOverwriting g entry = .ok t ∧ ofGraph g entry = .ok t ∧
      Set.BijOn t.numberOf {n | g.Reaches entry n} (Set.Icc 1 t.order.size) ∧
      (∀ i < t.order.size, ∃ n, t.order[i]? = some n ∧ t.numberOf n = i + 1) ∧
      (∀ n, g.Reaches entry n → t.order[t.numberOf n - 1]? = some n) ∧
      (∀ n < g.nodeCount, ¬ g.Reaches entry n → t.number[n]? = some 0) ∧
      t.numberOf entry = 1 ∧
      (∀ w, w ≠ entry → g.Reaches entry w → ∃ p, t.parentOf w = some p ∧ w ∈ g.successors p ∧
        g.Reaches entry p ∧ t.numberOf p < t.numberOf w) ∧
      ∀ u v, g.Reaches entry u → g.Reaches entry v → v ∈ g.successors u →
        t.numberOf u < t.numberOf v → t.Above u v := by
  obtain ⟨t, run, spans⟩ := ofGraph_spans inside
  have placed : ∀ n, g.Reaches entry n → t.order[t.numberOf n - 1]? = some n := fun n reach => by
    have numbered := (spans.numbered_iff n).mpr reach
    exact (spans.number_iff n _).mp (by omega)
  refine ⟨t, (ofGraphOverwriting_eq inside).trans run, run, ⟨?_, ?_, ?_⟩, ?_, placed, ?_, ?_, ?_,
    ?_⟩
  · intro n reach
    exact ⟨(spans.numbered_iff n).mpr reach, spans.number_le_size n⟩
  · intro n reach m _ same
    exact spans.eq_of_number_eq ((spans.numbered_iff n).mpr reach) same
  · rintro k ⟨least, most⟩
    have number := spans.number_getElem (i := k - 1) (by omega)
    refine ⟨t.order[k - 1], (spans.numbered_iff _).mp (by omega), ?_⟩
    omega
  · intro i less
    exact ⟨t.order[i], Array.getElem?_eq_getElem less, spans.number_getElem less⟩
  · intro n within unreached
    have room : n < t.number.size := by rwa [spans.size_eq]
    have zero : t.numberOf n = 0 := Nat.eq_zero_of_not_pos (mt (spans.numbered_iff n).mp unreached)
    simpa [numberOf, room] using zero
  · have numbered := (spans.numbered_iff entry).mpr (.refl inside)
    have first := mt (spans.below_iff entry).mp fun below => below.1 rfl
    omega
  · intro w other reach
    obtain ⟨p, parent, edge, numbered, less⟩ :=
      spans.parent_some w ((spans.below_iff w).mpr ⟨other, reach⟩)
    exact ⟨p, parent, edge, (spans.numbered_iff p).mp numbered, less⟩
  · exact fun u v reach _ edge => spans.forward u v edge ((spans.numbered_iff u).mpr reach)

/-- The second node is put on the stack by the first one and then once more by the third one. -/
def shortcut : Graph String :=
  .ofCalls [.node "a", .node "b", .node "c", .node "d", .edge 0 1, .edge 0 2, .edge 2 1, .edge 3 1]

theorem overwriting_search_spans_shortcut : shortcut.contains 0 ∧
    ∃ t, ofGraphOverwriting shortcut 0 = .ok t ∧ t.order = #[0, 2, 1] ∧ t.parentOf 1 = some 2 ∧
      t.numberOf 0 = 1 ∧ t.numberOf 1 = 3 ∧ t.Above 0 1 := by
  have inside : shortcut.contains 0 := by decide
  obtain ⟨t, run, _, numbers, _, placed, _, first, _, forward⟩ := overwriting_search_spans inside
  have known : (ofGraphOverwriting shortcut 0).map
      (fun t => (t.order, t.parentOf 1, t.numberOf 1)) = .ok (#[0, 2, 1], some 2, 3) := by
    with_unfolding_all rfl
  rw [run] at known
  obtain ⟨order, parent, third⟩ :
      t.order = #[0, 2, 1] ∧ t.parentOf 1 = some 2 ∧ t.numberOf 1 = 3 := by
    simpa [Except.map] using known
  have edge : 1 ∈ shortcut.successors 0 := by decide
  have start : shortcut.Reaches 0 0 := .refl inside
  exact ⟨inside, t, run, order, parent, first, third,
    forward 0 1 start (start.step edge) edge (by omega)⟩

end SpanningTree

end ReachingValues
