import ReachingValues.Proofs.Dominators.Children

/-!
The computation of dominators once more, with the tables that the plain functions do without:
predecessors are collected from the successors, numbered nodes are written to a table that has one
place for each node and are read from there, and the lists of children are filled child by child.
No access to a table fails, and the answers are the same.
-/

namespace ReachingValues

variable {α : Type} {g h : Graph α} {entry : Node}

section Collect

/-- Appends the second node to the list of the first one. -/
def enter (lists : Array (List Node)) (pair : Node × Node) : Except Fault (Array (List Node)) := do
  store lists pair.1 ((← fetch lists pair.1) ++ [pair.2])

/-- One list for each node, with the nodes that it is paired with. -/
def collect (size : Nat) (pairs : List (Node × Node)) : Except Fault (Array (List Node)) :=
  pairs.foldlM enter (Array.replicate size [])

theorem collect_ok (size : Nat) (pairs : List (Node × Node))
    (bounded : ∀ pair ∈ pairs, pair.1 < size) :
    ∃ lists, collect size pairs = .ok lists ∧ lists.size = size ∧
      ∀ n < size, lists[n]? = some ((pairs.filter (·.1 == n)).map (·.2)) := by
  refine foldlM_ok enter pairs (Array.replicate size [])
    (fun done lists => lists.size = size ∧
      ∀ n < size, lists[n]? = some ((done.filter (·.1 == n)).map (·.2)))
    ⟨Array.size_replicate, fun n inside => by simp [inside]⟩ ?_
  rintro done pair rest lists split ⟨length, entries⟩
  have inside : pair.1 < size := bounded pair (by simp [split])
  have room : pair.1 < lists.size := by rwa [length]
  refine ⟨lists.setIfInBounds pair.1 ((done.filter (·.1 == pair.1)).map (·.2) ++ [pair.2]), ?_,
    Array.size_setIfInBounds.trans length, fun n within => ?_⟩
  · rw [enter, fetch, entries pair.1 inside, ok_bind, store_eq room]
  · rw [Array.getElem?_setIfInBounds, List.filter_append, List.map_append]
    by_cases same : pair.1 = n
    · subst same
      simp [room]
    · simp [same, entries n within]

end Collect

namespace Graph

/-- Every edge as its target with its source. -/
def reversedEdges (g : Graph α) : List (Node × Node) :=
  (g.nodes.map fun n => (g.successors n).map (·, n)).flatten

theorem mem_reversedEdges {s t : Node} : (t, s) ∈ g.reversedEdges ↔ t ∈ g.successors s := by
  simp only [reversedEdges, nodes, List.mem_flatten, List.mem_map, List.mem_range]
  constructor
  · rintro ⟨_, ⟨n, _, rfl⟩, listed⟩
    obtain ⟨_, edge, same⟩ := List.mem_map.mp listed
    obtain ⟨rfl, rfl⟩ := Prod.mk.inj same
    exact edge
  · intro edge
    exact ⟨_, ⟨s, (lt_nodeCount_of_mem_successors edge).1, rfl⟩, List.mem_map_of_mem edge⟩

/-- The predecessors of every node, collected from the successors. -/
def predecessorTable (g : Graph α) : Except Fault (Array (List Node)) := do
  let pairs ← g.nodes.mapM fun n => do return (← g.successorsOf n).map (·, n)
  collect g.nodeCount pairs.flatten

theorem predecessorTable_ok (g : Graph α) : ∃ lists, g.predecessorTable = .ok lists ∧
    lists.size = g.nodeCount ∧ ∀ s t : Node, s ∈ lists[t]?.getD [] ↔ t ∈ g.successors s := by
  have pairs : (g.nodes.mapM fun n => do return (← g.successorsOf n).map (·, n)) =
      .ok (g.nodes.map fun n => (g.successors n).map (·, n)) := by
    rw [mapM_eq_ok_iff, List.map_map]
    refine List.map_congr_left fun n member => ?_
    rw [successorsOf_of_lt (List.mem_range.mp member)]
    rfl
  obtain ⟨lists, run, size, entries⟩ := collect_ok g.nodeCount g.reversedEdges
    fun _ member => (lt_nodeCount_of_mem_successors (mem_reversedEdges.mp member)).2
  refine ⟨lists, ?_, size, fun s t => ?_⟩
  · rw [predecessorTable, pairs, ok_bind]
    exact run
  · rw [← mem_reversedEdges]
    by_cases inside : t < g.nodeCount
    · rw [entries t inside, Option.getD_some]
      simp
    · rw [Array.getElem?_eq_none (size ▸ Nat.not_lt.mp inside), mem_reversedEdges]
      refine ⟨fun member => (nomatch member), fun edge => ?_⟩
      exact absurd (lt_nodeCount_of_mem_successors edge).2 inside

/-- The graph with the predecessors of every node listed in another way. -/
def relist (g : Graph α) (lists : Array (List Node)) (size : lists.size = g.nodeCount)
    (agree : ∀ s t : Node, s ∈ lists[t]?.getD [] ↔ t ∈ g.successors s) : Graph α :=
  { g with
    incoming := lists.map List.toArray
    incoming_size := Array.size_map.trans size
    ends_agree := fun s t => by
      rw [← Array.mem_toList_iff]
      refine (agree s t).symm.trans ?_
      rw [Array.getElem?_map]
      cases lists[t]? <;> simp }

/-- The same nodes with the same lists of successors, while predecessors may be listed in another
way. -/
structure Relists (h g : Graph α) : Prop where
  nodeCount_eq : h.nodeCount = g.nodeCount
  successors_eq : ∀ n, h.successors n = g.successors n

/-- The table holds the predecessors of a graph that differs from the given one in nothing else. -/
theorem exists_relisted (g : Graph α) : ∃ (h : Graph α) (lists : Array (List Node)),
    g.predecessorTable = .ok lists ∧ h.Relists g ∧ lists.size = h.nodeCount ∧
      ∀ n, h.predecessors n = lists[n]?.getD [] := by
  obtain ⟨lists, run, size, agree⟩ := g.predecessorTable_ok
  refine ⟨g.relist lists size agree, lists, run, ⟨rfl, fun _ => rfl⟩, size, fun n => ?_⟩
  simp only [predecessors, relist, Array.getElem?_map]
  cases lists[n]? <;> rfl

namespace Relists

variable {n m : Node} {visited : List Node}

theorem symm (relists : h.Relists g) : g.Relists h :=
  ⟨relists.nodeCount_eq.symm, fun n => (relists.successors_eq n).symm⟩

theorem path (relists : h.Relists g) (path : g.Path n visited m) : h.Path n visited m := by
  induction path with
  | here inside => exact .here (by rwa [contains_iff, relists.nodeCount_eq, ← contains_iff])
  | step edge rest ih => exact .step (relists.successors_eq _ ▸ edge) ih

theorem path_iff (relists : h.Relists g) : h.Path n visited m ↔ g.Path n visited m :=
  ⟨relists.symm.path, relists.path⟩

theorem immediatelyDominates (relists : h.Relists g)
    (immediate : h.ImmediatelyDominates entry n m) : g.ImmediatelyDominates entry n m := by
  obtain ⟨strict, lowest⟩ := immediate
  simp only [StrictlyDominates, Dominates, Reaches, relists.path_iff] at strict lowest
  exact ⟨strict, lowest⟩

/-- Dominators are a matter of paths, and these of successors. -/
theorem faithful {t : DominatorTree} (relists : h.Relists g) (faithful : t.Faithful h entry) :
    t.Faithful g entry where
  entry_eq := faithful.entry_eq
  nodeCount_eq := faithful.nodeCount_eq.trans relists.nodeCount_eq
  immediateDominator_iff n d := (faithful.immediateDominator_iff n d).trans
    ⟨relists.immediatelyDominates, relists.symm.immediatelyDominates⟩
  isReachable_iff n := by
    rw [faithful.isReachable_iff]
    exact exists_congr fun _ => relists.path_iff

end Relists

end Graph

/-- A graph has one dominator tree only. -/
theorem DominatorTree.Faithful.unique {t u : DominatorTree} (one : t.Faithful g entry)
    (other : u.Faithful g entry) : t = u := by
  have same : t.links = u.links := by
    have size : t.links.size = u.links.size := one.nodeCount_eq.trans other.nodeCount_eq.symm
    refine Array.ext size fun n inside within => ?_
    have link : t.immediateDominator n = u.immediateDominator n := by
      refine Option.ext fun d => ?_
      rw [one.immediateDominator_iff, other.immediateDominator_iff]
    simpa [immediateDominator, inside, within] using link
  have entries : t.entry = u.entry := one.entry_eq.trans other.entry_eq.symm
  obtain ⟨_, _, _, children_eq⟩ := t
  obtain ⟨_, _, _, children_eq'⟩ := u
  obtain rfl := entries
  obtain rfl := same
  obtain rfl := children_eq.trans children_eq'.symm
  rfl

/-- The order in which predecessors are listed does not matter to the dominator tree. -/
theorem Graph.Relists.dominatorTree_eq (relists : h.Relists g) (entry : Node) :
    h.dominatorTree entry = g.dominatorTree entry := by
  obtain ⟨t, run, faithful⟩ := h.dominatorTree_faithful entry
  obtain ⟨u, run', faithful'⟩ := g.dominatorTree_faithful entry
  rw [run, run', (relists.faithful faithful).unique faithful']

namespace SpanningTree

variable {s final : SpanningTree} {stack : List (Option Node × Node)} {table : Array (Option Node)}

/-- Continues the search, and writes every node that gets a number to a table. -/
def exploreInto (g : Graph α) (s : SpanningTree) (table : Array (Option Node))
    (stack : List (Option Node × Node)) : Except Fault (SpanningTree × Array (Option Node)) :=
  match stack with
  | [] => .ok (s, table)
  | (above, n) :: rest =>
    if h : n < s.number.size then
      if unnumbered : s.number[n] = 0 then do
        let table ← store table s.order.size (some n)
        let _ ← g.successorsOf n
        exploreInto g (s.place above n h) table (((g.successors n).map (some n, ·)).reverse ++ rest)
      else exploreInto g s table rest
    else .error (.indexOutOfRange n s.number.size)
termination_by s.remainingCost g + stack.length
decreasing_by
  · have paid := remainingCost_place g s above h unnumbered
    simp only [List.length_append, List.length_reverse, List.length_map, List.length_cons]
    omega
  · simp

theorem explore_relists (relists : h.Relists g) :
    explore h s stack = explore g s stack := by
  induction s, stack using explore.induct g with
  | case1 s => rw [explore, explore]
  | case2 s above n rest inside unnumbered ih =>
    rw [explore, dif_pos inside, dif_pos unnumbered, relists.successors_eq, ih, explore,
      dif_pos inside, dif_pos unnumbered]
  | case3 s above n rest inside numbered ih =>
    rw [explore, dif_pos inside, dif_neg numbered, ih, explore, dif_pos inside, dif_neg numbered]
  | case4 s above n rest outside =>
    rw [explore, dif_neg outside, explore, dif_neg outside]

/-- The search only adds to the numbered nodes. -/
theorem order_prefix_of_explore (run : explore g s stack = .ok final) :
    s.order.toList <+: final.order.toList := by
  induction s, stack using explore.induct g with
  | case1 s =>
    rw [explore] at run
    obtain rfl := Except.ok.inj run
    exact List.prefix_rfl
  | case2 s above n rest inside unnumbered ih =>
    rw [explore, dif_pos inside, dif_pos unnumbered] at run
    refine List.IsPrefix.trans ?_ (ih run)
    simp [place]
  | case3 s above n rest inside numbered ih =>
    rw [explore, dif_pos inside, dif_neg numbered] at run
    exact ih run
  | case4 s above n rest outside =>
    rw [explore, dif_neg outside] at run
    cases run

/-- A table with room for all numbered nodes gets each of them at its place. -/
theorem exploreInto_eq (table : Array (Option Node)) (run : explore g s stack = .ok final)
    (size : s.number.size = g.nodeCount)
    (fits : final.order.size ≤ table.size)
    (written : ∀ (i : Nat) n, s.order[i]? = some n → table[i]? = some (some n)) :
    ∃ later, exploreInto g s table stack = .ok (final, later) ∧
      ∀ (i : Nat) n, final.order[i]? = some n → later[i]? = some (some n) := by
  induction s, stack using explore.induct g generalizing table with
  | case1 s =>
    rw [explore] at run
    obtain rfl := Except.ok.inj run
    exact ⟨table, by rw [exploreInto], written⟩
  | case2 s above n rest inside unnumbered ih =>
    rw [explore, dif_pos inside, dif_pos unnumbered] at run
    have grown := (order_prefix_of_explore run).length_le
    simp only [place, Array.length_toList, Array.size_push] at grown
    have room : s.order.size < table.size := Nat.lt_of_lt_of_le grown fits
    obtain ⟨later, searched, known⟩ := ih (table.setIfInBounds s.order.size (some n)) run
      (by simpa [place] using size) (by simpa using fits) (by
        intro i m placed
        simp only [place, Array.getElem?_push] at placed
        rw [Array.getElem?_setIfInBounds]
        split at placed
        · rename_i last
          simp [last, room, Option.some.inj placed]
        · rename_i earlier
          rw [if_neg (Ne.symm earlier)]
          exact written i m placed)
    refine ⟨later, ?_, known⟩
    rw [exploreInto, dif_pos inside, dif_pos unnumbered, store_eq room, ok_bind,
      Graph.successorsOf_of_lt (size ▸ inside), ok_bind, searched]
  | case3 s above n rest inside numbered ih =>
    rw [explore, dif_pos inside, dif_neg numbered] at run
    rw [exploreInto, dif_pos inside, dif_neg numbered]
    exact ih table run size fits written
  | case4 s above n rest outside =>
    rw [explore, dif_neg outside] at run
    cases run

end SpanningTree

namespace Forest

variable {rank : Node → Except Fault Nat} {f : Forest} {n above : Node}

/-- Shortens the path above `n`, which must not be a root. -/
def compressLinked (rank : Node → Except Fault Nat) : Nat → Forest → Node → Except Fault Forest
  | 0, _, _ => .error .linkCycle
  | steps + 1, f, n => do
    match ← fetch f.link n with
    | none => .error (.missingLink n)
    | some above =>
      match ← fetch f.link above with
      | none => return f
      | some _ => (← compressLinked rank steps f above).skip rank n above

/-- As long as the first node is linked, the link of a root is never followed. -/
theorem compressLinked_eq (steps : Nat) (linked : f.link[n]? = some (some above)) :
    compressLinked rank steps f n = compressWithin rank steps f n := by
  induction steps generalizing n above with
  | zero => rfl
  | succ steps ih =>
    have atN : fetch f.link n = .ok (some above) := by rw [fetch, linked]
    rw [compressLinked, compressWithin, atN, ok_bind, ok_bind]
    cases next : f.link[above]? with
    | none => simp [fetch, next]
    | some link =>
      cases link with
      | none => simp [fetch, next]
      | some top => simp only [fetch, next, ok_bind, ih next]

/-- Answers like `lowest`, without following the link of a root. -/
def lowestLinked (rank : Node → Except Fault Nat) (f : Forest) (n : Node) :
    Except Fault (Node × Forest) := do
  match ← fetch f.link n with
  | none => return (n, f)
  | some _ =>
    let f ← compressLinked rank f.link.size f n
    return (← fetch f.best n, f)

/-- A path is shortened only where there is one. -/
theorem lowestLinked_eq (rank : Node → Except Fault Nat) (f : Forest) (n : Node) :
    f.lowestLinked rank n = f.lowest rank n := by
  rw [lowestLinked, lowest]
  cases linked : f.link[n]? with
  | none => simp [fetch, linked]
  | some link =>
    cases link with
    | none => simp [fetch, linked]
    | some above => simp only [fetch, linked, ok_bind, compress, compressLinked_eq _ linked]

end Forest

namespace Semidominators

variable {tree : SpanningTree} {table : Array (Option Node)} {sources : Array (List Node)}

/-- The node that is numbered after `i` others. -/
def numberedAt (table : Array (Option Node)) (i : Nat) : Except Fault Node := do
  match ← fetch table i with
  | none => .error (.missingLink i)
  | some n => return n

/-- Handles `n` like `handle`, given the nodes that have an edge to it. -/
def handleFrom (sources : List Node) (tree : SpanningTree) (s : Semidominators) (n : Node) :
    Except Fault Semidominators := do
  match ← fetch tree.parent n with
  | none => .error (.missingLink n)
  | some parent =>
    let s ← sources.foldlM (considerEdge tree n) s
    let s ← s.wait n
    release tree { s with forest := ← s.forest.attach parent n } parent

/-- The places of the nodes below the entry in the table of numbered nodes. -/
def placesBelowEntry (tree : SpanningTree) : List Nat := (List.range tree.order.size).tail

/-- The state after all nodes below the entry are handled. -/
def ofTables (sources : Array (List Node)) (tree : SpanningTree) (table : Array (Option Node)) :
    Except Fault Semidominators :=
  (placesBelowEntry tree).reverse.foldlM (fun s i => do
    let n ← numberedAt table i
    handleFrom (← fetch sources n) tree s n) (initial sources.size)

/-- The immediate dominators after the last pass. -/
def settledFrom (tree : SpanningTree) (table : Array (Option Node)) (s : Semidominators) :
    Except Fault (Array (Option Node)) :=
  (placesBelowEntry tree).foldlM (fun links i => do settle s.semi links (← numberedAt table i))
    s.dominator

section Agree

variable (genuine : tree.Genuine g entry)
  (written : ∀ (i : Nat) n, tree.order[i]? = some n → table[i]? = some (some n))

theorem belowEntry_eq : tree.belowEntry = (placesBelowEntry tree).map (tree.order[·]?.getD 0) := by
  rw [placesBelowEntry, List.map_tail, SpanningTree.belowEntry]
  refine congrArg List.tail (List.ext_getElem? fun i => ?_)
  rw [Array.getElem?_toList, List.getElem?_map]
  by_cases inside : i < tree.order.size
  · simp [inside]
  · simp [inside]

include written in
theorem numberedAt_eq {i : Nat} (place : i ∈ placesBelowEntry tree) :
    numberedAt table i = .ok (tree.order[i]?.getD 0) := by
  have inside := List.mem_range.mp (List.mem_of_mem_tail place)
  have known := Array.getElem?_eq_getElem inside
  rw [numberedAt, fetch, written i _ known, known]
  rfl

include genuine in
theorem place_lt_nodeCount {i : Nat} (place : i ∈ placesBelowEntry tree) :
    tree.order[i]?.getD 0 < g.nodeCount := by
  have inside := List.mem_range.mp (List.mem_of_mem_tail place)
  rw [Array.getElem?_eq_getElem inside, Option.getD_some]
  exact genuine.lt_nodeCount (genuine.number_getElem inside ▸ Nat.succ_pos i)

include genuine written in
theorem ofTables_eq (size : sources.size = g.nodeCount)
    (listed : ∀ n, g.predecessors n = sources[n]?.getD []) :
    ofTables sources tree table = ofTree g tree := by
  rw [ofTree, ofTables, belowEntry_eq, ← List.map_reverse, List.foldlM_map, size]
  refine foldlM_congr (fun i member s => ?_) _
  have place := List.mem_reverse.mp member
  have room : tree.order[i]?.getD 0 < sources.size := size ▸ place_lt_nodeCount genuine place
  rw [numberedAt_eq written place, ok_bind, fetch_eq room [], ok_bind, ← listed]
  rfl

include written in
theorem settledFrom_eq (s : Semidominators) : settledFrom tree table s = s.settled tree := by
  rw [settled, settledFrom, belowEntry_eq, List.foldlM_map]
  refine foldlM_congr (fun i place links => ?_) _
  rw [numberedAt_eq written place, ok_bind]

end Agree

end Semidominators

/-- The children of every node, collected from the links upwards. The entry is linked to itself. -/
def childTable (entry : Node) (links : Array (Option Node)) : Except Fault (Array (List Node)) :=
  collect links.size ((List.range links.size).filterMap fun n =>
    if n = entry then none else (links[n]?.getD none).map (·, n))

/-- The links upwards and the lists of children. -/
def Graph.dominatorTables (g : Graph α) (entry : Node) :
    Except Fault (Array (Option Node) × Array (List Node)) := do
  if g.contains entry then
    let sources ← g.predecessorTable
    let (tree, table) ← SpanningTree.exploreInto g (.unexplored g.nodeCount)
      (Array.replicate g.nodeCount none) [(none, entry)]
    let state ← Semidominators.ofTables sources tree table
    let links ← store (← state.settledFrom tree table) entry (some entry)
    return (links, ← childTable entry links)
  else return (Array.replicate g.nodeCount none, Array.replicate g.nodeCount [])

theorem filter_paired (link : Node → Option Node) (nodes : List Node) (p : Node) :
    ((nodes.filterMap fun n => (link n).map (·, n)).filter (·.1 == p)).map (·.2) =
      nodes.filter (link · == some p) := by
  induction nodes with
  | nil => rfl
  | cons n rest ih =>
    cases known : link n with
    | none => simp [known, ih]
    | some above =>
      by_cases same : above = p
      · simp [known, same, ih]
      · simp [known, same, ih]

theorem childLists_unlinked (nodeCount : Nat) :
    childLists (Array.replicate nodeCount none) = Array.replicate nodeCount [] := by
  refine Array.ext_getElem? fun p => ?_
  by_cases inside : p < nodeCount
  · rw [getElem?_childLists (by simpa using inside), Array.getElem?_replicate, if_pos inside]
    refine congrArg some (List.filter_eq_nil_iff.mpr fun c member => ?_)
    simp only [Array.size_replicate, List.mem_range] at member
    simp [member]
  · have beyond : nodeCount ≤ p := Nat.not_lt.mp inside
    rw [Array.getElem?_eq_none (by simpa [size_childLists] using beyond),
      Array.getElem?_eq_none (by simpa using beyond)]

theorem DominatorTree.Faithful.childTable_eq {t : DominatorTree} (faithful : t.Faithful g entry) :
    childTable entry (t.links.setIfInBounds entry (some entry)) = .ok t.children := by
  have marked : (fun n => if n = entry then none else
      ((t.links.setIfInBounds entry (some entry))[n]?.getD none).map (·, n)) =
      fun n => (t.immediateDominator n).map (·, n) := by
    funext n
    by_cases same : n = entry
    · rw [if_pos same, faithful.immediateDominator_eq_none (Or.inl same)]
      rfl
    · rw [if_neg same, Array.getElem?_setIfInBounds, if_neg (Ne.symm same)]
      rfl
  obtain ⟨lists, run, size, entries⟩ := collect_ok t.nodeCount
    ((List.range t.nodeCount).filterMap fun n => (t.immediateDominator n).map (·, n)) (by
      rintro ⟨p, c⟩ member
      obtain ⟨n, _, link⟩ := List.mem_filterMap.mp member
      obtain ⟨above, known, same⟩ := Option.map_eq_some_iff.mp link
      obtain ⟨rfl, rfl⟩ := Prod.mk.inj same
      have immediate := (faithful.immediateDominator_iff n above).mp known
      rw [faithful.nodeCount_eq]
      exact Graph.contains_iff.mp immediate.strict.2.reaches.contains.2)
  rw [childTable, marked, Array.size_setIfInBounds]
  refine run.trans (congrArg Except.ok (Array.ext_getElem? fun n => ?_))
  rw [t.children_eq]
  by_cases inside : n < t.nodeCount
  · rw [entries n inside, filter_paired, getElem?_childLists inside]
    rfl
  · rw [Array.getElem?_eq_none (size ▸ Nat.not_lt.mp inside),
      Array.getElem?_eq_none (size_childLists ▸ Nat.not_lt.mp inside)]

/-- With all tables in sight the computation succeeds, and it is the same tree. -/
theorem Graph.dominatorTables_eq (g : Graph α) (entry : Node) :
    ∃ t, g.dominatorTree entry = .ok t ∧ t.Faithful g entry ∧
      g.dominatorTables entry = .ok (t.links.setIfInBounds entry (some entry), t.children) := by
  obtain ⟨t, run, faithful⟩ := g.dominatorTree_faithful entry
  refine ⟨t, run, faithful, ?_⟩
  by_cases inside : g.contains entry
  · -- What is computed from the table is the tree of the relisted graph, step by step; that it is
    -- the same as the tree of `g` is known only of the result.
    obtain ⟨h, lists, sources, relists, size, listed⟩ := g.exists_relisted
    have contained : h.contains entry := by
      rwa [contains_iff, relists.nodeCount_eq, ← contains_iff]
    obtain ⟨tree, search, spans⟩ := SpanningTree.ofGraph_spans contained
    obtain ⟨s, handled, state⟩ := Semidominators.ofTree_handled spans contained
    obtain ⟨links, settled, linkCount, _⟩ := state.settled spans
    have same : t.links = links := by
      have other : h.dominatorTree entry = .ok ⟨entry, links, _, rfl⟩ := by
        simp only [dominatorTree, contained, if_true, search, handled, settled, ok_bind, pure_eq_ok]
      rw [relists.dominatorTree_eq, run] at other
      rw [Except.ok.inj other]
    have again : SpanningTree.explore g (.unexplored g.nodeCount) [(none, entry)] = .ok tree := by
      rw [← SpanningTree.explore_relists relists, ← relists.nodeCount_eq]
      exact search
    obtain ⟨table, searched, written⟩ := SpanningTree.exploreInto_eq
      (Array.replicate g.nodeCount none) again (by simp [SpanningTree.unexplored])
      (by simpa [relists.nodeCount_eq] using spans.order_size_le)
      (fun i n known => by simp [SpanningTree.unexplored] at known)
    have room : entry < links.size := by
      rw [linkCount, relists.nodeCount_eq]
      exact contains_iff.mp inside
    rw [dominatorTables, if_pos inside, sources, ok_bind, searched, ok_bind]
    simp only [Semidominators.ofTables_eq spans.toGenuine written size listed, handled, ok_bind,
      Semidominators.settledFrom_eq written, settled, store_eq room]
    rw [← same, faithful.childTable_eq]
    rfl
  · simp only [dominatorTree, inside, Bool.false_eq_true, if_false, pure_eq_ok] at run
    obtain rfl := Except.ok.inj run
    have beyond : g.nodeCount ≤ entry := Nat.not_lt.mp fun less => inside (contains_iff.mpr less)
    rw [dominatorTables, if_neg inside, Array.setIfInBounds_eq_of_size_le (by simpa using beyond)]
    exact congrArg (fun lists => Except.ok (_, lists)) (childLists_unlinked g.nodeCount).symm

end ReachingValues
