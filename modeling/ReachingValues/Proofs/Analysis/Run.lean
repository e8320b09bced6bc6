import ReachingValues.Analysis.Run
import ReachingValues.Proofs.Analysis.Definitions
import ReachingValues.Proofs.Analysis.TreeCheck

/-!
The analysis of a function of a built program never fails, and what it finds to reach a block is the
seed together with what the strict dominators of the block define.
-/

namespace ReachingValues

/-- The table tells which blocks are reached, and which values reach them by way of dominance. -/
structure ReachTable.Resolves (table : ReachTable) (f : Function) (d : Definitions)
    (seed : ValueSet) : Prop where
  reached_iff : ∀ b, (table.get? b).isSome ↔ f.flow.Reaches f.entry b
  capacity_eq : ∀ b s, table.get? b = some s → s.capacity = seed.capacity
  contains_iff : ∀ b s, table.get? b = some s → ∀ v, s.contains v ↔
    seed.contains v ∨ ∃ a, f.flow.StrictlyDominates f.entry a b ∧ d.Defines a v

namespace ReachTable.Resolves

variable {table : ReachTable} {f : Function} {d : Definitions} {seed : ValueSet} {b : Node}
  {v : ValueId} (resolves : table.Resolves f d seed)

include resolves

theorem exists_set (reach : f.flow.Reaches f.entry b) : ∃ s, table.get? b = some s :=
  Option.isSome_iff_exists.mp ((resolves.reached_iff b).mpr reach)

theorem contains_eq (reach : f.flow.Reaches f.entry b) : table.contains b v ↔
    seed.contains v ∨ ∃ a, f.flow.StrictlyDominates f.entry a b ∧ d.Defines a v := by
  obtain ⟨s, found⟩ := resolves.exists_set reach
  rw [ReachTable.contains, found, ← resolves.contains_iff b s found]
  rfl

/-- Nothing dominates the entry strictly, so the seed is all that reaches it. -/
theorem get?_entry (inside : f.flow.contains f.entry) : table.get? f.entry = some seed := by
  obtain ⟨s, found⟩ := resolves.exists_set (.refl inside)
  have same : s = seed := by
    refine IndexSet.eq_iff.mpr ⟨resolves.capacity_eq f.entry s found, fun v => ?_⟩
    rw [Bool.eq_iff_iff, resolves.contains_iff f.entry s found]
    exact or_iff_left fun ⟨_, strict, _⟩ => strict.ne_entry rfl
  exact same ▸ found

end ReachTable.Resolves

namespace Program

variable {p : Program} {f : Function} {k : FunctionId} {d : Definitions} {seed : ValueSet}
  {settings : Settings}

/-- The tree passes the check, so it does not matter whether it is checked. -/
theorem reach_eq (p : Program) (f : Function) : ∃ t : DominatorTree, t.Faithful f.flow f.entry ∧
    ∀ settings, p.reach settings f =
      (do
        let definitions ← p.definitions f settings.tracked
        definitions.propagate t.view (← p.seed f settings) settings.order).mapError
          Error.fault := by
  obtain ⟨t, run, faithful, passed⟩ := f.exists_dominatorTree
  refine ⟨t, faithful, fun settings => ?_⟩
  simp only [reach, run, mapError_ok, ok_bind, reachAlong, passed, ite_self]

theorem Collects.admits_view {t : DominatorTree} (collects : p.Collects f settings d seed)
    (nonempty : 0 < f.blockCount) (faithful : t.Faithful f.flow f.entry) :
    d.Admits t.view seed.capacity :=
  collects.admits fun _ leads => Graph.contains_iff.mp
    ((faithful.leads_root_iff (Graph.contains_iff.mpr nonempty)).mp leads).contains.2

theorem reach_ok (nonempty : 0 < f.blockCount) (collects : p.Collects f settings d seed) :
    ∃ table, p.reach settings f = .ok table ∧ table.Resolves f d seed := by
  have inside : f.flow.contains f.entry := Graph.contains_iff.mpr nonempty
  obtain ⟨t, faithful, along⟩ := p.reach_eq f
  obtain ⟨table, run, _, known, sets⟩ :=
    d.propagate_shaped faithful.view_shaped (collects.admits_view nonempty faithful) settings.order
  refine ⟨table, ?_, fun b => ?_, fun b s found => (sets b s found).1, fun b s found v => ?_⟩
  · rw [along, collects.definitions, ok_bind, collects.seeded, ok_bind, run]
    rfl
  · rw [known, faithful.leads_root_iff inside]
  · simp only [(sets b s found).2 v, faithful.properAncestor_iff inside]

theorem run_of_known (known : p.functions[k]? = some f) (settings : Settings) :
    p.run settings k = p.reach settings f := by
  rw [run, function_eq_ok.mpr known, ok_bind]

theorem run_of_unknown (unknown : p.functions.size ≤ k) :
    p.run settings k = .error (.unknownFunction k) := by
  have none : p.functions[k]? = none := Array.getElem?_eq_none unknown
  rw [run, function, none]
  rfl

theorem WellFormed.run_ok (wellFormed : p.WellFormed) (known : p.functions[k]? = some f)
    (settings : Settings) : ∃ d seed table, p.Collects f settings d seed ∧
      p.run settings k = .ok table ∧ table.Resolves f d seed := by
  obtain ⟨d, seed, collects⟩ := wellFormed.collects known settings
  obtain ⟨_, nonempty, _⟩ := wellFormed.functions k f known
  obtain ⟨table, run, resolves⟩ := reach_ok nonempty collects
  exact ⟨d, seed, table, collects, (run_of_known known settings).trans run, resolves⟩

/-- A value that a block produces does not reach that block by way of dominance. -/
theorem WellFormed.not_contains_of_produces {table : ReachTable} {b : Node} {s : ValueSet}
    {v : ValueId} (wellFormed : p.WellFormed) (known : p.functions[k]? = some f)
    (collects : p.Collects f settings d seed) (resolves : table.Resolves f d seed)
    (found : table.get? b = some s) (produces : f.Produces b v) : s.contains v = false := by
  have unseeded : ¬ p.TracksGlobal settings.tracked v ∧ ¬ p.TracksParameter f settings.tracked v :=
    wellFormed.not_seeded_of_produces known produces
  rw [Bool.eq_false_iff, ne_eq, resolves.contains_iff b s found, collects.seed_iff]
  rintro ((⟨_, global⟩ | parameter) | ⟨a, strict, defined⟩)
  · exact unseeded.1 global
  · exact unseeded.2 parameter
  · have other := ((collects.defines_iff a v).mp defined).1
    exact strict.1 (wellFormed.produces_unique known other produces)

/-- A function with two branches that meet again, one of which computes a value. -/
def diamond : Program := (empty "sample").performAll
  [.globalVariable "g" (.int 32) (some 1),
    .session ⟨"f", [("n", .int 32)],
      [.block "entry", .block "left", .block "right", .block "join",
        .binary 0 "x" .add (.int 32) (.value 1) (.immediate 1),
        .compare 0 "c" (.value 2) (.immediate 0), .branch 0 3 1 2,
        .binary 1 "y" .mul (.int 32) (.value 2) (.value 2), .jump 1 3, .jump 2 3,
        .ret 3 (some 2)], true⟩]

theorem diamond_built : diamond.Built := ⟨_, _, rfl⟩

def diamondFunction : Function :=
  have inside : 0 < diamond.functions.size := by decide
  diamond.functions[0]

theorem diamond_function : diamond.function 0 = .ok diamondFunction := rfl

theorem diamond_join : diamondFunction.flow.Path 0 [0, 2, 3] 3 :=
  .step (by decide) (.step (by decide) (.here (by decide)))

/-- The values that reach a block, told by the paths of the control flow graph. -/
theorem run_by_paths (built : p.Built) (known : p.function k = .ok f) (settings : Settings) :
    ∃ table, p.run settings k = .ok table ∧
      (∀ b, ¬ f.flow.Reaches 0 b → table.get? b = none) ∧
      (∀ b, f.flow.Reaches 0 b → ∃ s, table.get? b = some s ∧ ∀ v, s.contains v ↔
        settings.includeGlobals ∧ p.TracksGlobal settings.tracked v ∨
        p.TracksParameter f settings.tracked v ∨
        ∃ d, d ≠ b ∧ p.TracksResult f settings.tracked d v ∧
          ∀ visited, f.flow.Path 0 visited b → d ∈ visited) ∧
      (∃ seed, p.seed f settings = .ok seed ∧ table.get? 0 = some seed) ∧
      ∀ b s v, table.get? b = some s → f.Produces b v → s.contains v = false := by
  have wellFormed := built.wellFormed
  have known := function_eq_ok.mp known
  obtain ⟨d, seed, table, collects, run, resolves⟩ := wellFormed.run_ok known settings
  have inside : f.flow.contains 0 := Graph.contains_iff.mpr (wellFormed.functions k f known).2.1
  refine ⟨table, run, fun b unreached => ?_, fun b reach => ?_,
    ⟨seed, collects.seeded, resolves.get?_entry inside⟩, fun b s v found produces => ?_⟩
  · exact Option.not_isSome_iff_eq_none.mp fun some => unreached ((resolves.reached_iff b).mp some)
  · obtain ⟨s, found⟩ := resolves.exists_set reach
    refine ⟨s, found, fun v => ?_⟩
    rw [resolves.contains_iff b s found, collects.seed_iff, or_assoc]
    refine or_congr_right (or_congr_right (exists_congr fun a => ?_))
    rw [collects.defines_iff]
    exact ⟨fun ⟨⟨other, _, everywhere⟩, result⟩ => ⟨other, result, everywhere⟩,
      fun ⟨other, result, everywhere⟩ => ⟨⟨other, reach, everywhere⟩, result⟩⟩
  · exact wellFormed.not_contains_of_produces known collects resolves found produces

/-- At the join the entry's value holds, but not that of one branch. -/
theorem run_by_paths_diamond : ∃ table s, diamond.run .standard 0 = .ok table ∧
    table.get? 3 = some s ∧ s.contains 2 = true ∧ s.contains 5 = false := by
  obtain ⟨table, run, _, reached, _⟩ := run_by_paths diamond_built diamond_function .standard
  obtain ⟨s, found, members⟩ := reached 3 diamond_join.reaches
  refine ⟨table, s, run, found, ?_, ?_⟩
  · refine (members 2).mpr (Or.inr (Or.inr ⟨0, by decide, ⟨?_, ?_⟩, fun _ path => path.source_mem⟩))
    · exact ⟨_, _, rfl, Array.mem_of_getElem? (i := 0) rfl, rfl⟩
    · exact ⟨_, rfl, by decide⟩
  · have left : diamond.origin? 5 = some (.instruction 0 1) := rfl
    rw [Bool.eq_false_iff, ne_eq, members]
    rintro (⟨_, _, _, _, global, _⟩ | ⟨parameter, _⟩ | ⟨d, _, ⟨produces, _⟩, everywhere⟩)
    · exact absurd (left.symm.trans global) (by simp)
    · exact absurd parameter (by decide)
    · have origin := diamond_built.wellFormed.origin?_of_produces (k := 0) rfl produces
      obtain rfl : d = 1 := by simpa [left, eq_comm] using origin
      exact absurd (everywhere _ diamond_join) (by decide)

/-- Where every item has an answer, the map collects the answers in the order of the items. -/
def KeepsOrder (mapAll : (Function → Except Error (FunctionId × ReachTable)) → List Function →
    Except Error (List (FunctionId × ReachTable))) : Prop :=
  ∀ answer items answers, items.map answer = answers.map .ok → mapAll answer items = .ok answers

theorem keepsOrder_mapM : KeepsOrder List.mapM :=
  fun _ _ _ all => mapM_eq_ok_iff.mpr all

theorem WellFormed.answer_ok (wellFormed : p.WellFormed) (known : p.functions[k]? = some f)
    (settings : Settings) :
    ∃ table, p.run settings k = .ok table ∧ p.answer settings f = .ok (k, table) := by
  obtain ⟨_, _, table, _, run, _⟩ := wellFormed.run_ok known settings
  refine ⟨table, run, ?_⟩
  rw [answer, ← run_of_known known, run, ok_bind, (wellFormed.functions k f known).1, pure_eq_ok]

theorem WellFormed.answers_ok (wellFormed : p.WellFormed) (settings : Settings) :
    ∃ answers, p.runAll settings = .ok answers ∧
      p.functions.toList.map (p.answer settings) = answers.map .ok ∧
      ∀ k, k < p.functions.size →
        ∃ table, p.run settings k = .ok table ∧ answers[k]? = some (k, table) := by
  obtain ⟨answers, run, length, entries⟩ := mapM_ok (p.answer settings) p.functions.toList
    (fun f a => p.answer settings f = .ok a) (by
      intro f member
      obtain ⟨k, atK⟩ := List.getElem?_of_mem member
      rw [Array.getElem?_toList] at atK
      obtain ⟨table, _, answer⟩ := wellFormed.answer_ok atK settings
      exact ⟨(k, table), answer, answer⟩)
  refine ⟨answers, run, List.ext_getElem? fun k => ?_, fun k inside => ?_⟩
  · rw [List.getElem?_map, List.getElem?_map]
    cases known : p.functions.toList[k]? with
    | none =>
      have outside := List.getElem?_eq_none_iff.mp known
      rw [List.getElem?_eq_none (length ▸ outside)]
      rfl
    | some f =>
      obtain ⟨a, found, answer⟩ := entries k f known
      rw [found, Option.map_some, Option.map_some, answer]
  · have known : p.functions[k]? = some p.functions[k] := Array.getElem?_eq_getElem inside
    obtain ⟨table, run, answer⟩ := wellFormed.answer_ok known settings
    obtain ⟨a, found, same⟩ := entries k _ (Array.getElem?_toList.trans known)
    obtain rfl := Except.ok.inj (answer.symm.trans same)
    exact ⟨table, run, found⟩

/-- The analysis fails for unknown functions and for nothing else, checks or not, and the answers
for all functions are those for each. -/
theorem run_fails_iff_unknown (built : p.Built)
    (mapAll : (Function → Except Error (FunctionId × ReachTable)) → List Function →
      Except Error (List (FunctionId × ReachTable))) (ordered : KeepsOrder mapAll) :
    (∀ k f, p.function k = .ok f →
      ∃ t, f.dominatorTree = .ok t ∧ f.checkTree t.view = .ok ()) ∧
    ∀ settings : Settings,
      (∀ k error, p.run settings k = .error error ↔
        p.functions.size ≤ k ∧ error = .unknownFunction k) ∧
      (∀ k, p.run { settings with checkTree := true } k =
        p.run { settings with checkTree := false } k) ∧
      ∃ answers, p.runAll settings = .ok answers ∧
        p.runAllThrough mapAll settings = .ok answers ∧
        answers.length = p.functions.size ∧
        ∀ k, k < p.functions.size →
          ∃ table, p.run settings k = .ok table ∧ answers[k]? = some (k, table) := by
  have wellFormed := built.wellFormed
  refine ⟨fun k f _ => ?_, fun settings => ⟨fun k error => ?_, fun k => ?_, ?_⟩⟩
  · obtain ⟨t, run, _, passed⟩ := f.exists_dominatorTree
    exact ⟨t, run, passed⟩
  · by_cases inside : k < p.functions.size
    · obtain ⟨_, _, table, _, run, _⟩ :=
        wellFormed.run_ok (Array.getElem?_eq_getElem inside) settings
      simp [run, Nat.not_le.mpr inside]
    · rw [run_of_unknown (Nat.not_lt.mp inside)]
      simp [Nat.not_lt.mp inside, eq_comm]
  · by_cases inside : k < p.functions.size
    · have known := Array.getElem?_eq_getElem inside
      obtain ⟨t, _, along⟩ := p.reach_eq p.functions[k]
      rw [run_of_known known, run_of_known known, along, along]
      rfl
    · rw [run_of_unknown (Nat.not_lt.mp inside), run_of_unknown (Nat.not_lt.mp inside)]
  · obtain ⟨answers, run, all, each⟩ := wellFormed.answers_ok settings
    have length := congrArg List.length all
    simp only [List.length_map, Array.length_toList] at length
    exact ⟨answers, run, ordered _ _ _ all, length.symm, each⟩

/-- A program with one function has one answer. -/
theorem run_fails_iff_unknown_diamond :
    KeepsOrder List.mapM ∧
    ∃ table, diamond.runAll .standard = .ok [(0, table)] ∧
      diamond.runAllThrough List.mapM .standard = .ok [(0, table)] ∧
      diamond.run .standard 1 = .error (.unknownFunction 1) := by
  refine ⟨keepsOrder_mapM, ?_⟩
  obtain ⟨_, every⟩ := run_fails_iff_unknown diamond_built _ keepsOrder_mapM
  obtain ⟨fails, _, answers, run, through, length, each⟩ := every .standard
  obtain ⟨table, _, first⟩ := each 0 (by decide)
  have one : answers.length = 1 := length
  obtain ⟨a, rfl⟩ := List.length_eq_one_iff.mp one
  obtain rfl := Option.some.inj first
  exact ⟨table, run, through, (fails 1 _).mpr ⟨by decide, rfl⟩⟩

end Program

end ReachingValues
