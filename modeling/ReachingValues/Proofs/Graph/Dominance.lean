import ReachingValues.Proofs.Graph.Paths

/-!
Dominance is a partial order on the reachable nodes, and an immediate dominator, where there is one,
splits the strict dominators off a node.
-/

namespace ReachingValues

namespace Graph

variable {α : Type} {g : Graph α} {entry a b c d n : Node} {visited : List Node}

namespace Dominates

theorem refl (reach : g.Reaches entry n) : g.Dominates entry n n :=
  ⟨reach, fun _ path => path.target_mem⟩

theorem first_visit (dominates : g.Dominates entry a b) (path : g.Path entry visited b) :
    ∃ earlier, g.Path entry (earlier ++ [a]) a ∧ a ∉ earlier ∧ earlier ++ [a] <+: visited :=
  path.first_visit (dominates.2 visited path)

theorem reaches (dominates : g.Dominates entry a b) : g.Reaches entry a := by
  obtain ⟨visited, path⟩ := dominates.1
  obtain ⟨earlier, front, _, _⟩ := dominates.first_visit path
  exact front.reaches

theorem trans (upper : g.Dominates entry a b) (lower : g.Dominates entry b c) :
    g.Dominates entry a c := by
  refine ⟨lower.1, fun visited path => ?_⟩
  obtain ⟨earlier, front, _, within⟩ := lower.first_visit path
  exact within.subset (upper.2 _ front)

/-- Each of two different nodes that dominate each other would be visited on the way to the other,
so a shortest path to either of them could be shortened. -/
theorem antisymm (upper : g.Dominates entry a b) (lower : g.Dominates entry b a) : a = b := by
  obtain ⟨visited, path⟩ := lower.1
  induction length : visited.length using Nat.strongRecOn generalizing visited with
  | ind size ih =>
    subst length
    obtain ⟨earlier, front, _, within⟩ := lower.first_visit path
    obtain ⟨first, back, _, inner⟩ := upper.first_visit front
    have total := within.length_le
    rcases List.prefix_concat_iff.mp inner with equal | proper
    · simpa using congrArg List.getLast? equal
    · have bound := proper.length_le
      refine ih _ ?_ _ back rfl
      simp only [List.length_append, List.length_singleton] at total bound ⊢
      omega

end Dominates

/-- The path without an edge leads to the entry, so no other node dominates it. -/
theorem StrictlyDominates.ne_entry (strict : g.StrictlyDominates entry a n) : n ≠ entry := by
  rintro rfl
  have only := strict.2.2 [n] (.here strict.2.1.contains.1)
  exact strict.1 (List.mem_singleton.mp only)

/-- A way to a node comes to a strict dominator before it ends. -/
theorem StrictlyDominates.shorter (strict : g.StrictlyDominates entry a n)
    (path : g.Path entry visited n) :
    ∃ front, g.Path entry front a ∧ front.length < visited.length := by
  rcases path.last_edge with ⟨same, _⟩ | ⟨m, earlier, toM, _, rfl⟩
  · exact absurd same.symm strict.ne_entry
  · have member : a ∈ earlier := by simpa [strict.1] using strict.2.2 _ path
    obtain ⟨front, toA, _, within⟩ := toM.first_visit member
    have bound := within.length_le
    refine ⟨_, toA, ?_⟩
    simp only [List.length_append, List.length_singleton] at bound ⊢
    omega

/-- If the ways to a node pass a marked node before they end, and at most one node is marked, the
marked node dominates strictly. -/
theorem exists_strictlyDominates (marked : Node → Prop) (reach : g.Reaches entry b)
    (unique : ∀ c d, marked c → marked d → c = d)
    (passed : ∀ earlier, g.Path entry (earlier ++ [b]) b → ∃ d ∈ earlier, marked d) :
    ∃ d, marked d ∧ g.StrictlyDominates entry d b := by
  obtain ⟨visited, path⟩ := reach
  obtain ⟨first, front, fresh, _⟩ := path.first_visit path.target_mem
  obtain ⟨d, member, mark⟩ := passed first front
  refine ⟨d, mark, ?_, path.reaches, fun visited path => ?_⟩
  · rintro rfl
    exact fresh member
  · rcases path.last_edge with ⟨rfl, rfl⟩ | ⟨m, earlier, _, _, rfl⟩
    · obtain ⟨c, impossible, _⟩ := passed [] path
      cases impossible
    · obtain ⟨c, early, other⟩ := passed earlier path
      exact List.mem_append_left _ (unique c d other mark ▸ early)

/-- The strict dominator of `n` that all strict dominators of `n` dominate. -/
structure ImmediatelyDominates (g : Graph α) (entry d n : Node) : Prop where
  strict : g.StrictlyDominates entry d n
  lowest : ∀ m, g.StrictlyDominates entry m n → g.Dominates entry m d

namespace ImmediatelyDominates

theorem unique (one : g.ImmediatelyDominates entry a n)
    (other : g.ImmediatelyDominates entry b n) : a = b :=
  (other.lowest a one.strict).antisymm (one.lowest b other.strict)

theorem strictlyDominates_iff (immediate : g.ImmediatelyDominates entry d n) :
    g.StrictlyDominates entry a n ↔ g.Dominates entry a d := by
  refine ⟨immediate.lowest a, fun upper => ⟨?_, upper.trans immediate.strict.2⟩⟩
  rintro rfl
  exact immediate.strict.1 (immediate.strict.2.antisymm upper)

end ImmediatelyDominates

end Graph

end ReachingValues
