import ReachingValues.Proofs.Analysis.Run
import ReachingValues.Tree.LinkTable

/-!
The two ways in which propagation fails. Two sets are united only if they are over one universe. All
sets of a run are over that of the seed, since they begin as the seed or empty; so a visit fails
when it comes to a block with definitions over another universe. And a table of sets is not made
longer than there is room for; so a visit fails when it comes to a node that lists one with too high
a handle. Nothing else can go wrong, nor does anything at a node without definitions, which may be no
block at all. Which of the two comes first is up to the order.
-/

namespace ReachingValues

namespace Definitions

variable {d : Definitions} {tree : TreeView} {seed own values : ValueSet} {sets later : NodeSets}
  {order : Order} {room capacity width : Nat} {n : Node} {fault : Fault}

theorem visit_of_mismatch (fits : sets.Over capacity) (covered : d.get? n = some own)
    (different : own.capacity ≠ capacity) :
    d.visit tree capacity sets n = .error (.universeMismatch capacity own.capacity) := by
  have size := fits.held_capacity (n := n)
  have refused := IndexSet.union_of_ne (size ▸ different)
  simp only [visit, handedDown, covered, refused, size, error_bind]

/-- What the tables of sets have in common during a run. -/
structure Sound (d : Definitions) (capacity : Nat) (sets : NodeSets) : Prop where
  uniform : sets.Over capacity
  within : sets.entries.size ≤ d.room

theorem Sound.of_seeded (begun : d.seeded tree seed = .ok sets) : d.Sound seed.capacity sets where
  uniform :=
    have resolved : d.Resolved tree seed [] [] sets := .start begun
    resolved.uniform
  within := (within_of_seeded begun).1

namespace Sound

variable (sound : d.Sound capacity sets)

include sound

theorem of_deliver {child : Node} (same : values.capacity = capacity)
    (run : deliver d.room capacity values sets child = .ok later) : d.Sound capacity later := by
  obtain ⟨within, inside⟩ := NodeSets.within_of_update run sound.within
  obtain ⟨next, again, fits, _⟩ := deliver_ok sound.uniform same inside
  obtain rfl := Except.ok.inj (run.symm.trans again)
  exact ⟨fits, within⟩

/-- A visit that succeeds has found what it needs. -/
theorem of_visit (run : d.visit tree capacity sets n = .ok later) :
    d.Sound capacity later ∧ (∀ own, d.get? n = some own → own.capacity = capacity) ∧
      ∀ c ∈ tree.children n, c < d.room := by
  have uniform : ∀ own, d.get? n = some own → own.capacity = capacity := fun own covered =>
    Classical.byContradiction fun different => by
      rw [visit_of_mismatch sound.uniform covered different] at run
      cases run
  obtain ⟨within, inside⟩ := within_of_visit sound.within run
  obtain ⟨next, again, fits, _⟩ := visit_ok sound.uniform uniform inside
  obtain rfl := Except.ok.inj (run.symm.trans again)
  exact ⟨⟨fits, within⟩, uniform, inside⟩

/-- A visit that fails has come to definitions over another universe, or to a handle that there is
no room for. -/
theorem of_visit_error (failed : d.visit tree capacity sets n = .error fault) :
    (∃ own, d.get? n = some own ∧ own.capacity ≠ capacity ∧
      fault = .universeMismatch capacity own.capacity) ∨
    ∃ c ∈ tree.children n, d.room ≤ c ∧ fault = .noRoom (c + 1) d.room := by
  by_cases uniform : ∀ own, d.get? n = some own → own.capacity = capacity
  case neg =>
    obtain ⟨own, covered, different⟩ : ∃ own, d.get? n = some own ∧ own.capacity ≠ capacity := by
      simpa using uniform
    rw [visit_of_mismatch sound.uniform covered different] at failed
    exact Or.inl ⟨own, covered, different, (Except.error.inj failed).symm⟩
  obtain ⟨values, handed, size, _⟩ := handedDown_ok sound.uniform uniform
  rw [visit, handed, ok_bind] at failed
  obtain ⟨done, child, rest, state, split, before, failed⟩ := exists_of_foldlM_error failed
  have now : d.Sound capacity state := holds_of_foldlM (fun _ state => d.Sound capacity state) sound
    (fun _ c state next now step => now.of_deliver size step) before
  refine Or.inr ⟨child, by simp [split], ?_⟩
  by_cases inside : child < d.room
  · obtain ⟨next, passed, _⟩ := deliver_ok now.uniform size inside
    cases failed.symm.trans passed
  · have refused : deliver d.room capacity values state child =
        .error (.noRoom (child + 1) d.room) :=
      NodeSets.update_of_le now.within (Nat.not_lt.mp inside)
    exact ⟨Nat.not_lt.mp inside, Except.error.inj (failed.symm.trans refused)⟩

end Sound

/-- What a run has found as far as it succeeds. -/
theorem sound_of_visits {visits : List Node} {start : NodeSets}
    (begun : d.seeded tree seed = .ok start)
    (run : visits.foldlM (d.visit tree seed.capacity) start = .ok sets) :
    d.Sound seed.capacity sets ∧ ∀ n ∈ visits,
      (∀ own, d.get? n = some own → own.capacity = seed.capacity) ∧
        ∀ c ∈ tree.children n, c < d.room := by
  refine holds_of_foldlM (fun done (state : NodeSets) => d.Sound seed.capacity state ∧
    ∀ n ∈ done, (∀ own, d.get? n = some own → own.capacity = seed.capacity) ∧
      ∀ c ∈ tree.children n, c < d.room) ⟨.of_seeded begun, by simp⟩ ?_ run
  rintro done n state later ⟨sound, found⟩ step
  obtain ⟨kept, now⟩ := sound.of_visit step
  exact ⟨kept, List.forall_mem_append.mpr ⟨found, List.forall_mem_singleton.mpr now⟩⟩

/-- Propagation returns just when it has what it needs, whatever the order. -/
theorem exists_propagate_iff :
    (∃ table, d.propagate tree seed order = .ok table) ↔ d.Admits tree seed.capacity := by
  constructor
  · rintro ⟨table, run⟩
    obtain ⟨_, start, begun, visited⟩ := visits_of_propagate run
    have found := (sound_of_visits begun visited).2
    refine ⟨fun n own leads => (found n (TreeView.mem_walk_iff.mpr leads)).1 own, fun n leads => ?_⟩
    rcases leads.last with rfl | ⟨p, toLister, listed⟩
    · exact (within_of_seeded begun).2
    · exact (found p (TreeView.mem_walk_iff.mpr toLister)).2 n listed
  · intro admits
    obtain ⟨table, run, _⟩ := propagate_yields admits order
    exact ⟨table, run⟩

/-- A run that fails names what was wrong where it came to it. -/
theorem propagate_error (failed : d.propagate tree seed order = .error fault) :
    (∃ n own, tree.Leads tree.root n ∧ d.get? n = some own ∧ own.capacity ≠ seed.capacity ∧
      fault = .universeMismatch seed.capacity own.capacity) ∨
    ∃ n, tree.Leads tree.root n ∧ d.room ≤ n ∧ fault = .noRoom (n + 1) d.room := by
  by_cases inside : tree.root < d.room
  case neg =>
    have outside := Nat.not_lt.mp inside
    rw [propagate, seeded_of_le outside, error_bind] at failed
    exact Or.inr ⟨tree.root, .here, outside, (Except.error.inj failed).symm⟩
  obtain ⟨start, begun⟩ := seeded_ok seed inside
  cases visiting : (tree.walk order).foldlM (d.visit tree seed.capacity) start with
  | ok sets =>
    rw [propagate, begun, ok_bind, visiting, ok_bind] at failed
    cases failed
  | error other =>
    rw [propagate, begun, ok_bind, visiting, error_bind] at failed
    obtain rfl := Except.error.inj failed
    obtain ⟨done, n, rest, sets, split, before, refused⟩ := exists_of_foldlM_error visiting
    have led : tree.Leads tree.root n := TreeView.mem_walk_iff.mp (by rw [split]; simp)
    rcases (sound_of_visits begun before).1.of_visit_error refused with
      ⟨own, covered, different, same⟩ | ⟨c, listed, outside, same⟩
    · exact Or.inl ⟨n, own, led, covered, different, same⟩
    · exact Or.inr ⟨c, led.concat listed, outside, same⟩

/-- A node has definitions if it is a block, and they are over one universe. -/
theorem clash_iff (uniform : d.Over width) :
    (∃ n own, tree.Leads tree.root n ∧ d.get? n = some own ∧ own.capacity ≠ capacity) ↔
      width ≠ capacity ∧ ∃ n, tree.Leads tree.root n ∧ n < d.blockCount := by
  constructor
  · rintro ⟨n, own, leads, covered, different⟩
    obtain ⟨inside, _⟩ := Array.getElem?_eq_some_iff.mp covered
    exact ⟨uniform n own covered ▸ different, n, leads, inside⟩
  · rintro ⟨different, n, leads, inside⟩
    have covered : d.get? n = some d.sets[n] := Array.getElem?_eq_getElem inside
    exact ⟨n, _, leads, covered, uniform n _ covered ▸ different⟩

end Definitions

namespace Program

/-- The definitions of a function can be collected in any program, as sets over its values. Their
propagation fails just when the seed is over another universe and the links lead from the root to a
block that has definitions, or when they lead to a handle that there is no room for; and then it
tells which. Otherwise every node that they lead to gets a set over the universe of the seed, be it
a block or not. -/
theorem propagate_fails_iff (p : Program) (f : Function) (tracked : TyClasses) :
    ∃ d, p.definitions f tracked = .ok d ∧ d.blockCount = f.blockCount ∧
      (∀ b own, d.get? b = some own → own.capacity = p.valueCount) ∧
      ∀ (tree : TreeView) (seed : ValueSet) (order : Order),
        ((∃ fault, d.propagate tree seed order = .error fault) ↔
          (p.valueCount ≠ seed.capacity ∧ ∃ n, tree.Leads tree.root n ∧ n < d.blockCount) ∨
            ∃ n, tree.Leads tree.root n ∧ d.room ≤ n) ∧
        (∀ fault, d.propagate tree seed order = .error fault →
          (fault = .universeMismatch seed.capacity p.valueCount ∧ p.valueCount ≠ seed.capacity ∧
            ∃ n, tree.Leads tree.root n ∧ n < d.blockCount) ∨
          ∃ n, tree.Leads tree.root n ∧ d.room ≤ n ∧ fault = .noRoom (n + 1) d.room) ∧
        (¬ (p.valueCount ≠ seed.capacity ∧ ∃ n, tree.Leads tree.root n ∧ n < d.blockCount) →
          (∀ n, tree.Leads tree.root n → n < d.room) →
          ∃ table, d.propagate tree seed order = .ok table ∧
            (∀ n, (table.get? n).isSome ↔ tree.Leads tree.root n) ∧
            ∀ n s, table.get? n = some s → s.capacity = seed.capacity) := by
  obtain ⟨d, run, uniform, _⟩ := p.exists_definitions f tracked
  refine ⟨d, run, blockCount_definitions run, uniform, fun tree seed order => ?_⟩
  have kinds : ∀ fault, d.propagate tree seed order = .error fault →
      (fault = .universeMismatch seed.capacity p.valueCount ∧ p.valueCount ≠ seed.capacity ∧
        ∃ n, tree.Leads tree.root n ∧ n < d.blockCount) ∨
      ∃ n, tree.Leads tree.root n ∧ d.room ≤ n ∧ fault = .noRoom (n + 1) d.room := by
    intro fault failed
    refine (Definitions.propagate_error failed).imp_left ?_
    rintro ⟨n, own, leads, covered, different, same⟩
    exact ⟨uniform n own covered ▸ same,
      (Definitions.clash_iff uniform).mp ⟨n, own, leads, covered, different⟩⟩
  refine ⟨⟨?_, fun wrong => ?_⟩, kinds, fun unmet bounded => ?_⟩
  · rintro ⟨fault, failed⟩
    exact (kinds fault failed).imp And.right fun ⟨n, leads, outside, _⟩ => ⟨n, leads, outside⟩
  · cases outcome : d.propagate tree seed order with
    | error fault => exact ⟨fault, rfl⟩
    | ok table =>
      have admits := Definitions.exists_propagate_iff.mp ⟨table, outcome⟩
      rcases wrong with clash | ⟨n, leads, outside⟩
      · obtain ⟨n, own, leads, covered, different⟩ := (Definitions.clash_iff uniform).mpr clash
        exact absurd (admits.uniform n own leads covered) different
      · exact absurd (admits.bounded n leads) (Nat.not_lt.mpr outside)
  · have admits : d.Admits tree seed.capacity := by
      refine ⟨fun n own leads covered => Classical.byContradiction fun different => ?_, bounded⟩
      exact unmet ((Definitions.clash_iff uniform).mp ⟨n, own, leads, covered, different⟩)
    obtain ⟨table, passed, yields⟩ := Definitions.propagate_yields admits order
    exact ⟨table, passed, yields.isSome_iff, yields.capacity⟩

/-- Two nodes that are no blocks of a small function. -/
def outlying : LinkTable := ⟨7, [(7, [9])], []⟩

/-- The second of them lists a block. -/
def returning : LinkTable := ⟨7, [(7, [9]), (9, [2])], []⟩

/-- With a seed over too few values nothing fails before the walk comes to a block. -/
theorem propagate_fails_iff_diamond : ∃ d table s,
    diamond.definitions diamondFunction .integers = .ok d ∧
    d.propagate outlying.view (.empty 3) .breadthFirst = .ok table ∧
    table.get? 9 = some s ∧ s.capacity = 3 ∧
    d.propagate returning.view (.empty 3) .breadthFirst = .error (.universeMismatch 3 9) := by
  obtain ⟨d, run, blocks, _, outcome⟩ := diamond.propagate_fails_iff diamondFunction .integers
  have four : d.blockCount = 4 := blocks.trans (by decide)
  have different : diamond.valueCount ≠ (IndexSet.empty 3).capacity := by decide
  have listed : 9 ∈ returning.view.children 7 ∧ 2 ∈ returning.view.children 9 := by decide
  have outer : 9 ∈ outlying.view.children 7 := by decide
  have led : outlying.view.Leads outlying.view.root 9 := .down outer .here
  have closed : ∀ p ∈ [7, 9], ∀ c ∈ outlying.view.children p, c ∈ [7, 9] := by decide
  have outside : ∀ n ∈ [7, 9], ¬ n < d.blockCount := four ▸ by decide
  have room : ∀ n, n < NodeSets.maxLength → n < d.room := fun n low =>
    Nat.lt_of_lt_of_le low (Nat.le_max_left _ _)
  obtain ⟨_, _, passes⟩ := outcome outlying.view (.empty 3) .breadthFirst
  obtain ⟨fails, kinds, _⟩ := outcome returning.view (.empty 3) .breadthFirst
  obtain ⟨table, passed, reached, capacities⟩ := passes
    (fun clash => by
      obtain ⟨_, n, leads, inside⟩ := clash
      exact outside n (leads.induct (fun p c old => closed p old c) (by decide)) inside)
    fun n leads => room n (TreeView.lt_of_links (by decide) (by decide) n leads)
  obtain ⟨s, found⟩ := Option.isSome_iff_exists.mp ((reached 9).mpr led)
  refine ⟨d, table, s, run, passed, found, capacities 9 s found, ?_⟩
  obtain ⟨fault, failed⟩ := fails.mpr
    (Or.inl ⟨different, 2, .down listed.1 (.down listed.2 .here), four ▸ (by decide)⟩)
  rcases kinds fault failed with ⟨rfl, _⟩ | ⟨n, leads, beyond, _⟩
  · exact failed
  · exact absurd (room n (TreeView.lt_of_links (by decide) (by decide) n leads))
      (Nat.not_lt.mpr beyond)

/-- One node, the last one that a handle of 64 bits can name. -/
def remote : LinkTable := ⟨UInt64.size - 1, [], []⟩

/-- There is no room for it, and so there is no result, although the universes agree. -/
theorem propagate_fails_without_mismatch : ∃ d,
    diamond.definitions diamondFunction .integers = .ok d ∧
    (∀ b own, d.get? b = some own → own.capacity = (IndexSet.empty 9).capacity) ∧
    ∀ order, d.propagate remote.view (.empty 9) order =
      .error (.noRoom UInt64.size NodeSets.maxLength) := by
  obtain ⟨d, run, uniform, _⟩ := diamond.exists_definitions diamondFunction .integers
  have four : d.blockCount = 4 := (blockCount_definitions run).trans (by decide)
  have room : d.room = NodeSets.maxLength := by rw [Definitions.room, four]; decide
  refine ⟨d, run, uniform, fun order => ?_⟩
  rw [Definitions.propagate, Definitions.seeded_of_le (room ▸ by decide), error_bind, room]
  rfl

end Program

end ReachingValues
