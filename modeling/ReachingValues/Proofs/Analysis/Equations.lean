import ReachingValues.Proofs.Analysis.Run

/-!
The sets that the walk down the dominator tree finds also solve the equations that a data flow
analysis would iterate: what reaches a block is what every predecessor lets through. A value that
solves them is defined on every path before the block is entered, and as it has one definition, that
one dominates the block; so no solution has more.
-/

namespace ReachingValues

/-- Sets for the reachable blocks that agree with each other along all edges. -/
structure Function.Solves (f : Function) (d : Definitions) (seed : ValueSet)
    (sets : Node → ValueId → Prop) : Prop where
  entry : ∀ v, sets f.entry v ↔ seed.contains v
  block : ∀ b, b ≠ f.entry → f.flow.Reaches f.entry b → ∀ v, sets b v ↔
    ∀ p ∈ f.flow.predecessors b, f.flow.Reaches f.entry p → sets p v ∨ d.Defines p v

section Solutions

variable {f : Function} {d : Definitions} {seed : ValueSet} {sets : Node → ValueId → Prop}
  {table : ReachTable} {b : Node} {v : ValueId} {earlier : List Node}

/-- Where a solution has a value that is not in the seed, every way has passed its definition. -/
theorem Function.Solves.defined_before (solves : f.Solves d seed sets)
    (path : f.flow.Path f.entry (earlier ++ [b]) b) (member : sets b v)
    (fresh : ¬ seed.contains v) :
    ∃ a ∈ earlier, d.Defines a v := by
  induction size : earlier.length using Nat.strongRecOn generalizing b earlier with
  | ind size ih =>
    subst size
    have other : b ≠ f.entry := by
      rintro rfl
      exact fresh ((solves.entry v).mp member)
    rcases path.last_edge with ⟨same, _⟩ | ⟨m, visited, toM, edge, split⟩
    · exact absurd same.symm other
    obtain rfl := List.append_cancel_right split
    have before := (solves.block b other path.reaches v).mp member m
      (Graph.mem_successors_iff.mp edge) toM.reaches
    rcases before with member | defines
    · obtain ⟨front, rfl⟩ := toM.ends
      obtain ⟨a, early, defines⟩ := ih front.length (by simp) toM member rfl
      exact ⟨a, List.mem_append_left _ early, defines⟩
    · exact ⟨m, toM.target_mem, defines⟩

namespace ReachTable.Resolves

variable (resolves : table.Resolves f d seed)
  (unique : ∀ v a b, d.Defines a v → d.Defines b v → a = b)

include resolves unique

theorem solves (inside : f.flow.contains f.entry) :
    f.Solves d seed (fun b v => table.contains b v) := by
  refine ⟨fun v => ?_, fun b other reach v => ?_⟩
  · rw [resolves.contains_eq (.refl inside)]
    exact or_iff_left fun ⟨_, strict, _⟩ => strict.ne_entry rfl
  rw [resolves.contains_eq reach]
  constructor
  · rintro (seeded | ⟨a, strict, defines⟩) p pred reachP
    · exact Or.inl ((resolves.contains_eq reachP).mpr (Or.inl seeded))
    · by_cases same : a = p
      · exact Or.inr (same ▸ defines)
      · refine Or.inl ((resolves.contains_eq reachP).mpr (Or.inr ⟨a, ⟨same, reachP, ?_⟩, defines⟩))
        intro visited path
        have member := strict.2.2 _ (path.concat (Graph.mem_successors_iff.mpr pred))
        simpa [strict.1] using member
  · intro everywhere
    by_cases seeded : seed.contains v
    · exact Or.inl seeded
    right
    obtain ⟨a, defines, strict⟩ := Graph.exists_strictlyDominates (d.Defines · v) reach (unique v)
      fun earlier path => by
        rcases path.last_edge with ⟨same, _⟩ | ⟨m, visited, toM, edge, split⟩
        · exact absurd same.symm other
        obtain rfl := List.append_cancel_right split
        rcases everywhere m (Graph.mem_successors_iff.mp edge) toM.reaches with member | defines
        · obtain ⟨a, strict, defines⟩ :=
            ((resolves.contains_eq toM.reaches).mp member).resolve_left seeded
          exact ⟨a, strict.2.2 _ toM, defines⟩
        · exact ⟨m, toM.target_mem, defines⟩
    exact ⟨a, strict, defines⟩

theorem greatest (solves : f.Solves d seed sets) (reach : f.flow.Reaches f.entry b)
    (member : sets b v) : table.contains b v := by
  rw [resolves.contains_eq reach]
  by_cases seeded : seed.contains v
  · exact Or.inl seeded
  obtain ⟨a, defines, strict⟩ := Graph.exists_strictlyDominates (d.Defines · v) reach (unique v)
    fun earlier path => solves.defined_before path member seeded
  exact Or.inr ⟨a, strict, defines⟩

end ReachTable.Resolves

end Solutions

namespace Program

variable {p : Program} {f : Function} {k : FunctionId}

/-- The sets that are found are the greatest solution of the equations. -/
theorem run_greatest_solution (built : p.Built) (known : p.function k = .ok f)
    (settings : Settings) : ∃ d seed table, p.definitions f settings.tracked = .ok d ∧
      p.seed f settings = .ok seed ∧ p.run settings k = .ok table ∧
      f.Solves d seed (fun b v => table.contains b v) ∧
      ∀ sets, f.Solves d seed sets → ∀ b, f.flow.Reaches f.entry b →
        ∀ v, sets b v → table.contains b v := by
  have wellFormed := built.wellFormed
  have known := function_eq_ok.mp known
  obtain ⟨d, seed, table, collects, run, resolves⟩ := wellFormed.run_ok known settings
  have inside : f.flow.contains f.entry :=
    Graph.contains_iff.mpr (wellFormed.functions k f known).2.1
  have unique : ∀ v a b, d.Defines a v → d.Defines b v → a = b := fun v a b one other =>
    wellFormed.produces_unique known ((collects.defines_iff a v).mp one).1
      ((collects.defines_iff b v).mp other).1
  exact ⟨d, seed, table, collects.definitions, collects.seeded, run, resolves.solves unique inside,
    fun sets solves b reach v => resolves.greatest unique solves reach⟩

/-- At the join of two branches no solution has more than what is found. -/
theorem run_greatest_solution_diamond : ∃ d seed table,
    diamond.definitions diamondFunction .integers = .ok d ∧
      diamond.seed diamondFunction .standard = .ok seed ∧
      diamond.run .standard 0 = .ok table ∧
      diamondFunction.Solves d seed (fun b v => table.contains b v) ∧
      ∀ sets, diamondFunction.Solves d seed sets → ∀ v, sets 3 v → table.contains 3 v := by
  obtain ⟨d, seed, table, definitions, seeded, run, solves, greatest⟩ :=
    run_greatest_solution diamond_built diamond_function .standard
  exact ⟨d, seed, table, definitions, seeded, run, solves,
    fun sets other => greatest sets other 3 diamond_join.reaches⟩

end Program

end ReachingValues
