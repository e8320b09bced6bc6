import ReachingValues.Analysis.Propagation
import ReachingValues.Proofs.Analysis.NodeSets
import ReachingValues.Proofs.Tree.Walk

/-!
One visit adds to the sets of the children what the visited node holds and what it defines. So a
value travels down a link when the node above is visited, and travels on if the node below is
visited later. This tells all sets in the end from the list of visits, whatever the links are. If
they form a tree, every node is visited after its parent, no value is left behind, and a node holds
the seed and the definitions of all its ancestors.

Two things are asked for so that no visit fails. The definitions on the way are over the universe of
the seed, and each handle on the way has a place in a table of sets.
-/

namespace ReachingValues

variable {d : Definitions} {tree : TreeView} {seed values : ValueSet} {sets later : NodeSets}
  {room capacity : Nat} {a c m n : Node} {v : ValueId}

namespace Definitions

/-- All sets are sets over the same universe. -/
def Over (d : Definitions) (capacity : Nat) : Prop :=
  ∀ b own, d.get? b = some own → own.capacity = capacity

def Defines (d : Definitions) (b : Node) (v : ValueId) : Prop :=
  ∃ own, d.get? b = some own ∧ own.contains v

/-- What a run along a view needs: the definitions that it meets are over one universe, and there
is room for the handles that it meets. -/
structure Admits (d : Definitions) (tree : TreeView) (capacity : Nat) : Prop where
  uniform : ∀ n own, tree.Leads tree.root n → d.get? n = some own → own.capacity = capacity
  bounded : ∀ n, tree.Leads tree.root n → n < d.room

theorem Over.admits (uniform : d.Over capacity)
    (bounded : ∀ n, tree.Leads tree.root n → n < d.room) : d.Admits tree capacity where
  uniform n own _ := uniform n own
  bounded := bounded

/-- There is always room for the blocks themselves. -/
theorem lt_room (inside : n < d.blockCount) : n < d.room :=
  Nat.lt_of_lt_of_le inside (Nat.le_max_right _ _)

theorem isSome_deliver (run : deliver room capacity values sets n = .ok later) (m : Node) :
    (later.get? m).isSome ↔ m = n ∨ (sets.get? m).isSome := by
  obtain ⟨_, _, rfl⟩ := NodeSets.eq_set_of_update run
  rw [NodeSets.get?_set]
  split <;> simp_all

/-- A visit makes sets for the children, and takes none away. -/
theorem isSome_visit (run : d.visit tree capacity sets n = .ok later) (m : Node) :
    (later.get? m).isSome ↔ m ∈ tree.children n ∨ (sets.get? m).isSome := by
  obtain ⟨values, _, delivered⟩ := bind_eq_ok_iff.mp run
  refine holds_of_foldlM (fun done state =>
    ∀ m, (state.get? m).isSome ↔ m ∈ done ∨ (sets.get? m).isSome) (fun m => by simp)
    (fun done child state next known step m => ?_) delivered m
  rw [isSome_deliver step, known, List.mem_append, List.mem_singleton, or_left_comm, or_assoc]

section Visit

variable (fits : sets.Over capacity)

include fits

theorem handedDown_ok (uniform : ∀ own, d.get? n = some own → own.capacity = capacity) :
    ∃ values, d.handedDown capacity sets n = .ok values ∧ values.capacity = capacity ∧
      ∀ v, values.contains v ↔ sets.Holds n v ∨ d.Defines n v := by
  have size := fits.held_capacity (n := n)
  unfold handedDown Defines
  cases known : d.get? n with
  | none => exact ⟨_, rfl, size, fun v => by simp [NodeSets.held_contains]⟩
  | some own =>
    have same : own.capacity = (sets.held capacity n).capacity := by rw [uniform own known, size]
    simp only [IndexSet.union_of_eq same, ok_bind, pure_eq_ok]
    exact ⟨_, rfl, size, fun v => by simp [NodeSets.held_contains]⟩

theorem deliver_ok (same : values.capacity = capacity) {child : Node} (inside : child < room) :
    ∃ later, deliver room capacity values sets child = .ok later ∧ later.Over capacity ∧
      ∀ m v, later.Holds m v ↔ sets.Holds m v ∨ m = child ∧ values.contains v := by
  have size := fits.held_capacity (n := child)
  have equal : values.capacity = (sets.held capacity child).capacity := by rw [same, size]
  have run : deliver room capacity values sets child =
      .ok (sets.set child ((sets.held capacity child).withAll values equal)) := by
    rw [deliver, NodeSets.update_of_lt inside, IndexSet.union_of_eq equal]
    rfl
  refine ⟨_, run, fits.set size, fun m v => ?_⟩
  rw [NodeSets.holds_set]
  by_cases here : m = child
  · simp [here, NodeSets.held_contains]
  · simp [here]

/-- A visit adds nothing to a set but to those of the children. -/
theorem visit_ok (uniform : ∀ own, d.get? n = some own → own.capacity = capacity)
    (bounded : ∀ c ∈ tree.children n, c < d.room) :
    ∃ later, d.visit tree capacity sets n = .ok later ∧ later.Over capacity ∧
      ∀ m v, later.Holds m v ↔
        sets.Holds m v ∨ m ∈ tree.children n ∧ (sets.Holds n v ∨ d.Defines n v) := by
  obtain ⟨values, handed, size, members⟩ := handedDown_ok fits uniform
  obtain ⟨later, run, uniformLater, holds⟩ := foldlM_ok (deliver d.room capacity values)
    (tree.children n) sets
    (fun seen state => state.Over capacity ∧
      ∀ m v, state.Holds m v ↔ sets.Holds m v ∨ m ∈ seen ∧ values.contains v)
    ⟨fits, by simp⟩ (by
      intro seen child rest state split ⟨uniform, holds⟩
      have inside : child < d.room := bounded child (by simp [split])
      obtain ⟨next, run, uniformNext, holdsNext⟩ := deliver_ok uniform size inside
      refine ⟨next, run, uniformNext, fun m v => ?_⟩
      rw [holdsNext, holds, List.mem_append, List.mem_singleton, or_and_right, or_assoc])
  refine ⟨later, ?_, uniformLater, fun m v => ?_⟩
  · rw [visit, handed, ok_bind]
    exact run
  · rw [holds, members]

end Visit

theorem seeded_ok (seed : ValueSet) (inside : tree.root < d.room) :
    ∃ sets, d.seeded tree seed = .ok sets :=
  ⟨_, NodeSets.update_of_lt inside⟩

theorem seeded_of_le (outside : d.room ≤ tree.root) :
    d.seeded tree seed = .error (.noRoom (tree.root + 1) d.room) :=
  NodeSets.update_of_le (Nat.zero_le _) outside

theorem eq_set_of_seeded (run : d.seeded tree seed = .ok sets) :
    sets = NodeSets.bare.set tree.root seed := by
  obtain ⟨values, same, rfl⟩ := NodeSets.eq_set_of_update run
  rw [Except.ok.inj same]

/-- A table of sets that there is room for stays one, so what was given a set has a place in it. -/
theorem within_of_seeded (run : d.seeded tree seed = .ok sets) :
    sets.entries.size ≤ d.room ∧ tree.root < d.room :=
  NodeSets.within_of_update run (Nat.zero_le _)

theorem within_of_visit (within : sets.entries.size ≤ d.room)
    (run : d.visit tree capacity sets n = .ok later) :
    later.entries.size ≤ d.room ∧ ∀ c ∈ tree.children n, c < d.room := by
  obtain ⟨values, _, delivered⟩ := bind_eq_ok_iff.mp run
  refine holds_of_foldlM (fun done (state : NodeSets) =>
    state.entries.size ≤ d.room ∧ ∀ c ∈ done, c < d.room) ⟨within, by simp⟩
    (fun done child state next now step => ?_) delivered
  obtain ⟨kept, inside⟩ := NodeSets.within_of_update step now.1
  exact ⟨kept, List.forall_mem_append.mpr ⟨now.2, List.forall_mem_singleton.mpr inside⟩⟩

/-- A run that returns has made the visits of the walk, one after the other. -/
theorem visits_of_propagate {order : Order} {table : ReachTable}
    (run : d.propagate tree seed order = .ok table) :
    table.blocks = tree.walk order ∧ ∃ start, d.seeded tree seed = .ok start ∧
      (tree.walk order).foldlM (d.visit tree seed.capacity) start = .ok table.sets := by
  obtain ⟨start, begun, run⟩ := bind_eq_ok_iff.mp run
  obtain ⟨sets, visited, same⟩ := bind_eq_ok_iff.mp run
  obtain rfl := Except.ok.inj same
  exact ⟨rfl, start, begun, visited⟩

/-- It has made sets for the nodes of the walk and for no others, whatever they are. -/
theorem isSome_of_propagate {order : Order} {table : ReachTable}
    (run : d.propagate tree seed order = .ok table) (n : Node) :
    (table.get? n).isSome ↔ n ∈ table.blocks := by
  obtain ⟨blocks, start, begun, visited⟩ := visits_of_propagate run
  have known := holds_of_foldlM (fun done state => ∀ n, (state.get? n).isSome ↔ tree.Met done n)
    (fun n => by
      rw [eq_set_of_seeded begun, NodeSets.get?_set]
      split <;> simp_all [TreeView.Met])
    (fun done m state later known step n => by
      rw [isSome_visit step, known, TreeView.met_append, or_comm])
    visited
  rw [blocks, TreeView.mem_walk_iff]
  exact (known n).trans TreeView.met_walk_iff

/-- What a node hands to those below it: its own definitions and those that came down to it before
its visit. -/
def HandsDown (d : Definitions) (tree : TreeView) (visits : List Node) (n : Node) (v : ValueId) :
    Prop :=
  ∃ a, Relation.ReflTransGen (tree.Forward visits) a n ∧ d.Defines a v

theorem handsDown_iff {order : Order} {done rest : List Node}
    (split : tree.walk order = done ++ n :: rest) :
    d.HandsDown tree (tree.walk order) n v ↔
      d.Defines n v ∨ ∃ p ∈ done, n ∈ tree.children p ∧ d.HandsDown tree (tree.walk order) p v := by
  constructor
  · rintro ⟨a, onward, defined⟩
    rcases Relation.ReflTransGen.cases_tail onward with rfl | ⟨p, upTo, listed, before⟩
    · exact Or.inl defined
    · exact Or.inr ⟨p, (TreeView.before_iff split).mp before, listed, a, upTo, defined⟩
  · rintro (defined | ⟨p, passed, listed, a, upTo, defined⟩)
    · exact ⟨n, .refl, defined⟩
    · exact ⟨a, upTo.tail ⟨listed, (TreeView.before_iff split).mpr passed⟩, defined⟩

/-- The sets after the nodes in `done` are visited, as the list of all visits tells them. -/
structure Resolved (d : Definitions) (tree : TreeView) (seed : ValueSet) (visits done : List Node)
    (sets : NodeSets) : Prop where
  uniform : sets.Over seed.capacity
  known_iff : ∀ n, (sets.get? n).isSome ↔ tree.Met done n
  holds_iff : ∀ n v, sets.Holds n v ↔ tree.Met done n ∧
    (seed.contains v ∨ ∃ p ∈ done, n ∈ tree.children p ∧ d.HandsDown tree visits p v)

namespace Resolved

variable {order : Order} {visits done rest : List Node}

theorem start (run : d.seeded tree seed = .ok sets) : d.Resolved tree seed visits [] sets := by
  obtain rfl := eq_set_of_seeded run
  refine ⟨fun n s known => ?_, fun n => ?_, fun n v => ?_⟩
  · rw [NodeSets.get?_set] at known
    split at known
    · exact Option.some.inj known ▸ rfl
    · cases known
  · rw [NodeSets.get?_set]
    split <;> simp_all [TreeView.Met]
  · rw [NodeSets.holds_set]
    split <;> simp_all [TreeView.Met, NodeSets.Holds]

theorem visit (resolved : d.Resolved tree seed (tree.walk order) done sets)
    (admits : d.Admits tree seed.capacity) (split : tree.walk order = done ++ n :: rest) :
    ∃ later, d.visit tree seed.capacity sets n = .ok later ∧
      d.Resolved tree seed (tree.walk order) (done ++ [n]) later := by
  have led : tree.Leads tree.root n := TreeView.mem_walk_iff.mp (by rw [split]; simp)
  obtain ⟨later, run, uniformLater, holds⟩ := visit_ok resolved.uniform
    (fun own => admits.uniform n own led) fun c listed => admits.bounded c (led.concat listed)
  refine ⟨later, run, uniformLater, fun m => ?_, fun m v => ?_⟩
  · rw [isSome_visit run, resolved.known_iff, TreeView.met_append, or_comm]
  have met : tree.Met done n := TreeView.walk_met split
  -- the visited node hands on just what it holds at this moment and what it defines
  have atVisit : sets.Holds n v ∨ d.Defines n v ↔
      seed.contains v ∨ d.HandsDown tree (tree.walk order) n v := by
    rw [resolved.holds_iff n v, handsDown_iff split, and_iff_right met, or_assoc,
      or_comm (b := d.Defines n v)]
  have handed : (∃ p ∈ done ++ [n], m ∈ tree.children p ∧
        d.HandsDown tree (tree.walk order) p v) ↔
      (∃ p ∈ done, m ∈ tree.children p ∧ d.HandsDown tree (tree.walk order) p v) ∨
        m ∈ tree.children n ∧ d.HandsDown tree (tree.walk order) n v := by
    simp only [List.mem_append, List.mem_singleton, or_and_right, exists_or, exists_eq_left]
  rw [holds, atVisit, resolved.holds_iff m v, TreeView.met_append, handed]
  constructor
  · rintro (⟨known, sources⟩ | ⟨listed, sources⟩)
    · exact ⟨Or.inl known, sources.imp_right Or.inl⟩
    · exact ⟨Or.inr listed, sources.imp_right fun now => Or.inr ⟨listed, now⟩⟩
  · rintro ⟨known, seeded | ⟨p, passed, listed, before⟩ | ⟨listed, now⟩⟩
    · exact known.imp (⟨·, Or.inl seeded⟩) (⟨·, Or.inl seeded⟩)
    · exact Or.inl ⟨Or.inr ⟨p, passed, listed⟩, Or.inr ⟨p, passed, listed, before⟩⟩
    · exact Or.inr ⟨listed, Or.inr now⟩

end Resolved

/-- What the visits in some order make of the sets, along any view. -/
structure Yields (d : Definitions) (tree : TreeView) (seed : ValueSet) (order : Order)
    (table : ReachTable) : Prop where
  blocks : table.blocks = tree.walk order
  isSome_iff : ∀ n, (table.get? n).isSome ↔ tree.Leads tree.root n
  capacity : ∀ n s, table.get? n = some s → s.capacity = seed.capacity
  contains_iff : ∀ n s v, table.get? n = some s → (s.contains v ↔ seed.contains v ∨
    ∃ p, tree.Leads tree.root p ∧ n ∈ tree.children p ∧ d.HandsDown tree (tree.walk order) p v)

theorem propagate_yields (admits : d.Admits tree seed.capacity) (order : Order) :
    ∃ table, d.propagate tree seed order = .ok table ∧ d.Yields tree seed order table := by
  obtain ⟨start, begun⟩ := seeded_ok seed (admits.bounded tree.root .here)
  obtain ⟨sets, run, resolved⟩ := foldlM_ok (d.visit tree seed.capacity) (tree.walk order) start
    (d.Resolved tree seed (tree.walk order)) (.start begun)
    fun done n rest state split resolved => resolved.visit admits split
  have known : ∀ n, (sets.get? n).isSome ↔ tree.Leads tree.root n := fun n =>
    (resolved.known_iff n).trans TreeView.met_walk_iff
  refine ⟨⟨tree.walk order, sets⟩, ?_, rfl, known, resolved.uniform, fun n s v found => ?_⟩
  · rw [propagate, begun, ok_bind, run, ok_bind, pure_eq_ok]
  · have found : sets.get? n = some s := found
    rw [← NodeSets.holds_iff_of_get? found, resolved.holds_iff n v,
      and_iff_right ((resolved.known_iff n).mp (found ▸ rfl))]
    simp only [TreeView.mem_walk_iff]

theorem Yields.exists_set {table : ReachTable} {order : Order}
    (yields : d.Yields tree seed order table) (led : tree.Leads tree.root n) :
    ∃ s, table.get? n = some s ∧ s.capacity = seed.capacity ∧
      ∀ v, s.contains v ↔ seed.contains v ∨
        ∃ p, tree.Leads tree.root p ∧ n ∈ tree.children p ∧
          d.HandsDown tree (tree.walk order) p v := by
  obtain ⟨s, found⟩ := Option.isSome_iff_exists.mp ((yields.isSome_iff n).mpr led)
  exact ⟨s, found, yields.capacity n s found, fun v => yields.contains_iff n s v found⟩

/-- What is handed to a node comes down from one of its ancestors. -/
theorem HandsDown.exists_properAncestor {order : Order} {p : Node}
    (handed : d.HandsDown tree (tree.walk order) p v) (led : tree.Leads tree.root p)
    (listed : n ∈ tree.children p) : ∃ a, tree.ProperAncestor a n ∧ d.Defines a v := by
  obtain ⟨a, onward, defined⟩ := handed
  exact ⟨a, TreeView.properAncestor_iff_last.mpr ⟨TreeView.leads_root_of_onward onward led, p,
    TreeView.leads_of_onward onward, listed⟩, defined⟩

/-- Along a tree every node receives the seed and what its proper ancestors define. -/
theorem propagate_shaped (shaped : tree.Shaped) (admits : d.Admits tree seed.capacity)
    (order : Order) :
    ∃ table, d.propagate tree seed order = .ok table ∧ table.blocks = tree.walk order ∧
      (∀ n, (table.get? n).isSome ↔ tree.Leads tree.root n) ∧
      ∀ n s, table.get? n = some s → s.capacity = seed.capacity ∧
        ∀ v, s.contains v ↔ seed.contains v ∨ ∃ a, tree.ProperAncestor a n ∧ d.Defines a v := by
  obtain ⟨table, run, yields⟩ := propagate_yields admits order
  refine ⟨table, run, yields.blocks, yields.isSome_iff, fun n s found =>
    ⟨yields.capacity n s found, fun v => (yields.contains_iff n s v found).trans ?_⟩⟩
  refine or_congr_right ⟨?_, ?_⟩
  · rintro ⟨p, led, listed, handed⟩
    exact handed.exists_properAncestor led listed
  · rintro ⟨a, ancestor, defined⟩
    obtain ⟨above, p, leads, listed⟩ := TreeView.properAncestor_iff_last.mp ancestor
    exact ⟨p, above.trans leads, listed, a, shaped.onward_of_leads above leads, defined⟩

end Definitions

end ReachingValues
