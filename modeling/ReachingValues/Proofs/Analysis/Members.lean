import ReachingValues.Proofs.Analysis.Run
import ReachingValues.Proofs.Program.Continuation

/-!
What the analysis finds at a block, taken apart: which values are there when the block starts, and
which of them are tracked. The first has nothing to do with types and the second nothing with the
control flow graph, so results for different settings or programs can be compared.
-/

namespace ReachingValues

namespace Program

variable {p : Program} {f : Function} {k : FunctionId} {tracked : TyClasses} {settings : Settings}
  {b : Node} {v : ValueId}

/-- The value is there when the block starts: it is a global variable and these are asked for, a
parameter, or a result of another block through which every path to the block leads. -/
def Offers (p : Program) (f : Function) (includeGlobals : Bool) (b : Node) (v : ValueId) : Prop :=
  includeGlobals ∧ v ∈ p.globals ∨ v ∈ f.params ∨
    ∃ a, f.flow.StrictlyDominates f.entry a b ∧ f.Produces a v

/-- Besides global variables a block is offered values of its own function only. -/
theorem Offers.introduces {includeGlobals : Bool} (offers : p.Offers f includeGlobals b v) :
    includeGlobals ∧ v ∈ p.globals ∨ f.Introduces v := by
  rcases offers with global | member | ⟨a, _, produces⟩
  · exact Or.inl global
  · exact Or.inr (Or.inl member)
  · exact Or.inr (Or.inr ⟨a, produces⟩)

namespace WellFormed

variable (wellFormed : p.WellFormed) (known : p.functions[k]? = some f)

include wellFormed known

theorem tracksParameter_iff :
    p.TracksParameter f tracked v ↔ v ∈ f.params ∧ p.tracks Value.contentTy tracked v := by
  refine and_congr_right fun member => ?_
  obtain ⟨position, recorded⟩ := wellFormed.origin?_of_mem_params known member
  obtain ⟨value, atV, origin⟩ := origin?_eq_some.mp recorded
  have same : value.contentTy = value.ty := by rw [Value.contentTy, origin]
  simp [tracks_iff, atV, same]

theorem tracksResult_iff :
    p.TracksResult f tracked b v ↔ f.Produces b v ∧ p.tracks Value.contentTy tracked v :=
  and_congr_right fun produces =>
    (tracks_result_iff (wellFormed.origin?_of_produces known produces)).symm

end WellFormed

end Program

/-- The table has the reached blocks in the order of the walk, each with the tracked ones among the
values that are there when it starts. -/
structure ReachTable.Describes (table : ReachTable) (p : Program) (f : Function)
    (settings : Settings) : Prop where
  blocks_eq : ∀ t, f.dominatorTree = .ok t → table.blocks = t.view.walk settings.order
  reached_iff : ∀ b, (table.get? b).isSome ↔ f.flow.Reaches f.entry b
  capacity_eq : ∀ b s, table.get? b = some s → s.capacity = p.valueCount
  contains_iff : ∀ b s, table.get? b = some s → ∀ v, s.contains v ↔
    p.Offers f settings.includeGlobals b v ∧ p.tracks Value.contentTy settings.tracked v

namespace ReachTable.Describes

variable {table other : ReachTable} {p q : Program} {f : Function} {settings changed : Settings}
  {b : Node}
  (describes : table.Describes p f settings) (describes' : other.Describes q f changed)

include describes describes'

/-- Which blocks are visited and when depends on the function and the order alone. -/
theorem visits_eq (order : settings.order = changed.order) : table.blocks = other.blocks := by
  obtain ⟨t, dominators, _⟩ := f.exists_dominatorTree
  rw [describes.blocks_eq t dominators, describes'.blocks_eq t dominators, order]

theorem isReached_eq (b : Node) : table.isReached b = other.isReached b := by
  rw [Bool.eq_iff_iff]
  exact (describes.reached_iff b).trans (describes'.reached_iff b).symm

omit describes'

theorem exists_set (reach : f.flow.Reaches f.entry b) : ∃ s, table.get? b = some s :=
  Option.isSome_iff_exists.mp ((describes.reached_iff b).mpr reach)

theorem contains_eq_true_iff {v : ValueId} : table.contains b v ↔ f.flow.Reaches f.entry b ∧
    p.Offers f settings.includeGlobals b v ∧ p.tracks Value.contentTy settings.tracked v := by
  rw [← describes.reached_iff b, ReachTable.contains]
  cases found : table.get? b with
  | none => simp
  | some s => simpa using describes.contains_iff b s found v

theorem get?_eq_none (unreached : ¬ f.flow.Reaches f.entry b) : table.get? b = none :=
  Option.not_isSome_iff_eq_none.mp fun some => unreached ((describes.reached_iff b).mp some)

end ReachTable.Describes

namespace Program

variable {p : Program} {f : Function} {k : FunctionId} {settings : Settings}

theorem blocks_of_reach {table : ReachTable} {t : DominatorTree}
    (run : p.reach settings f = .ok table) (dominators : f.dominatorTree = .ok t) :
    table.blocks = t.view.walk settings.order := by
  obtain ⟨t', dominators', _, passed⟩ := f.exists_dominatorTree
  obtain rfl := Except.ok.inj (dominators.symm.trans dominators')
  simp only [reach, dominators, mapError_ok, ok_bind, reachAlong, passed, ite_self] at run
  cases collected : p.definitions f settings.tracked with
  | error fault => simp [collected] at run
  | ok d =>
    cases seeded : p.seed f settings with
    | error fault => simp [collected, seeded] at run
    | ok seed =>
      simp only [collected, seeded, ok_bind] at run
      exact (Definitions.visits_of_propagate (mapError_eq_ok_iff.mp run)).1

theorem WellFormed.run_describes (wellFormed : p.WellFormed) (known : p.functions[k]? = some f)
    (settings : Settings) :
    ∃ table, p.run settings k = .ok table ∧ table.Describes p f settings := by
  obtain ⟨d, seed, table, collects, run, resolves⟩ := wellFormed.run_ok known settings
  obtain ⟨seed', seeded', size, _⟩ := wellFormed.seed_ok known settings
  obtain rfl := Except.ok.inj (collects.seeded.symm.trans seeded')
  refine ⟨table, run, fun t dominators => ?_, resolves.reached_iff, fun b s found => ?_,
    fun b s found v => ?_⟩
  · exact blocks_of_reach ((run_of_known known settings).symm.trans run) dominators
  · rw [resolves.capacity_eq b s found, size]
  · simp only [resolves.contains_iff b s found, collects.seed_iff, collects.defines_iff,
      wellFormed.tracksGlobal_iff, wellFormed.tracksParameter_iff known,
      wellFormed.tracksResult_iff known, Offers, or_and_right, ← and_assoc, exists_and_right,
      or_assoc]

end Program

end ReachingValues
