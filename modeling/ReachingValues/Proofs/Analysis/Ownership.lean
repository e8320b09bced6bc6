import ReachingValues.Proofs.Analysis.Run
import ReachingValues.Proofs.IndexSet.Enumeration
import ReachingValues.Proofs.Program.Coherent

/-!
Who owns a definition. The collection looks up types and inserts handles, and checks nothing: that no
handle gets into two sets, or twice into one, is owed to the sessions, none of which gives out a
handle that has been given out before, be they finished or not.
-/

namespace ReachingValues

/-- The instructions of all blocks, block after block. -/
def Function.instructions (f : Function) : List Instruction :=
  f.flow.labels.toList.flatMap fun block => block.instructions.toList

namespace Program

variable {p : Program} {f : Function} {k : FunctionId} {tracked : TyClasses} {b : Node}
  {v : ValueId} {d : Definitions} {own : ValueSet} {content : Block}

/-- The set that is collected for a block of a function of the program. -/
def CollectedFor (p : Program) (k : FunctionId) (tracked : TyClasses) (b : Node)
    (own : ValueSet) : Prop :=
  ∃ f d, p.function k = .ok f ∧ p.definitions f tracked = .ok d ∧ d.get? b = some own

theorem tracksResult_iff_of_block (block : f.block? b = some content) :
    p.TracksResult f tracked b v ↔
      ∃ i ∈ content.instructions, i.value = v ∧ p.tracks Value.ty tracked v := by
  have typed : p.tracks Value.ty tracked v ↔
      ∃ value, p.value? v = some value ∧ value.ty.isTracked tracked := tracks_iff
  rw [TracksResult, ← typed, Function.Produces]
  constructor
  · rintro ⟨⟨_, i, also, listed, value⟩, tracks⟩
    obtain rfl := Option.some.inj (block.symm.trans also)
    exact ⟨i, listed, value, tracks⟩
  · rintro ⟨i, listed, value, tracks⟩
    exact ⟨⟨content, i, block, listed, value⟩, tracks⟩

theorem isSome_get?_definitions (run : p.definitions f tracked = .ok d) (b : Node) :
    (d.get? b).isSome ↔ (f.block? b).isSome := by
  have size : d.sets.size = f.flow.labels.size := blockCount_definitions run
  simp [Definitions.get?, Function.block?, Graph.label?, size]

namespace WellFormed

variable (wellFormed : p.WellFormed)

include wellFormed

theorem contains_iff_tracksResult (known : p.functions[k]? = some f)
    (run : p.definitions f tracked = .ok d) (atB : d.get? b = some own) :
    own.capacity = p.valueCount ∧ ∀ v, own.contains v ↔ p.TracksResult f tracked b v := by
  obtain ⟨d', again, uniform, defines⟩ := wellFormed.definitions_ok known tracked
  obtain rfl := Except.ok.inj (run.symm.trans again)
  refine ⟨uniform b own atB, fun v => ?_⟩
  rw [← defines, Definitions.Defines, atB]
  simp

theorem origin?_of_collected (collected : p.CollectedFor k tracked b own)
    (member : own.contains v) : p.origin? v = some (.instruction k b) := by
  obtain ⟨f, d, known, run, atB⟩ := collected
  have known := function_eq_ok.mp known
  have result := ((wellFormed.contains_iff_tracksResult known run atB).2 v).mp member
  exact wellFormed.origin?_of_produces known result.1

end WellFormed

namespace Coherent

variable (coherent : p.Coherent) (known : p.functions[k]? = some f)
  (run : p.definitions f tracked = .ok d)

include coherent known run

/-- The insertions do not collapse: the instructions of a block define different values. -/
theorem count_definitions (block : f.block? b = some content) (atB : d.get? b = some own) :
    own.count = content.instructions.toList.countP fun i => p.tracks Value.ty tracked i.value := by
  have distinct : (content.instructions.toList.map (·.value)).Nodup := by
    have ascending := (coherent.filled k f b content known block).ascending
    exact List.pairwise_map.mpr (ascending.imp Nat.ne_of_lt)
  have members : ∀ v, own.contains v ↔
      v ∈ (content.instructions.toList.map (·.value)).filter (p.tracks Value.ty tracked) :=
    fun v => by
      rw [(coherent.contains_iff_tracksResult known run atB).2 v, tracksResult_iff_of_block block,
        List.mem_filter, List.mem_map]
      simp only [Array.mem_toList_iff, exists_and_right, ← and_assoc]
  rw [IndexSet.count_of_mem_iff (distinct.filter _) members, ← List.countP_eq_length_filter,
    List.countP_map]
  rfl

theorem total_definitions :
    d.total = f.instructions.countP fun i => p.tracks Value.ty tracked i.value := by
  have size : d.sets.size = f.flow.labels.size := blockCount_definitions run
  have counts : d.sets.toList.map (·.count) = f.flow.labels.toList.map fun block =>
      block.instructions.toList.countP fun i => p.tracks Value.ty tracked i.value := by
    refine List.ext_getElem (by simpa using size) fun b inside within => ?_
    rw [List.length_map, Array.length_toList] at inside within
    rw [List.getElem_map, List.getElem_map, Array.getElem_toList, Array.getElem_toList]
    exact coherent.count_definitions known run (Array.getElem?_eq_getElem within)
      (Array.getElem?_eq_getElem inside)
  have added : d.total = (d.sets.toList.map (·.count)).sum := by
    rw [Definitions.total, ← Array.foldl_toList, List.sum_eq_foldl, List.foldl_map]
  rw [added, counts, Function.instructions, List.countP_flatMap]
  rfl

end Coherent

/-- In a program that can be built every block of a function has a set of its own over all values,
with the tracked results of its instructions and nothing else, and the sets together count the tracked
instructions. No value of a set is in the set of another block, whatever is tracked there, or is a
global variable or a parameter; it is recorded as a result of this block. -/
theorem definitions_owned (built : p.Built) :
    (∀ k f, p.function k = .ok f → ∀ tracked, ∃ d, p.definitions f tracked = .ok d ∧
      d.blockCount = f.blockCount ∧
      (∀ b, (d.get? b).isSome ↔ (f.block? b).isSome) ∧
      (∀ b own, d.get? b = some own → own.capacity = p.valueCount ∧
        ∀ v, own.contains v ↔ ∃ content i value, f.block? b = some content ∧
          i ∈ content.instructions ∧ i.value = v ∧
          p.value? v = some value ∧ value.ty.isTracked tracked) ∧
      d.total = f.instructions.countP fun i => p.tracks Value.ty tracked i.value) ∧
    ∀ k tracked b own, p.CollectedFor k tracked b own →
      (∀ k' tracked' b' own', p.CollectedFor k' tracked' b' own' → (k', b') ≠ (k, b) →
        ∀ v, own.contains v → ¬ own'.contains v) ∧
      ∀ v, own.contains v → p.origin? v = some (.instruction k b) ∧ v ∉ p.globals ∧
        ∀ k' f, p.function k' = .ok f → v ∉ f.params := by
  have coherent := built.coherent
  constructor
  · intro k f known tracked
    have known := function_eq_ok.mp known
    obtain ⟨d, run, _⟩ := coherent.definitions_ok known tracked
    refine ⟨d, run, blockCount_definitions run, isSome_get?_definitions run, fun b own atB => ?_,
      coherent.total_definitions known run⟩
    obtain ⟨size, members⟩ := coherent.contains_iff_tracksResult known run atB
    refine ⟨size, fun v => (members v).trans ?_⟩
    constructor
    · rintro ⟨⟨content, i, block, listed, result⟩, value, atV, isTracked⟩
      exact ⟨content, i, value, block, listed, result, atV, isTracked⟩
    · rintro ⟨content, i, value, block, listed, result, atV, isTracked⟩
      exact ⟨⟨content, i, block, listed, result⟩, value, atV, isTracked⟩
  · intro k tracked b own collected
    refine ⟨fun k' tracked' b' own' also apart v member shared => apart ?_, fun v member => ?_⟩
    · have one := coherent.origin?_of_collected collected member
      have other := coherent.origin?_of_collected also shared
      simpa using other.symm.trans one
    · have origin := coherent.origin?_of_collected collected member
      refine ⟨origin, fun global => ?_, fun k' f known param => ?_⟩
      · obtain ⟨storage, initial, other⟩ := coherent.globals v global
        exact absurd (origin.symm.trans other) (by simp)
      · obtain ⟨position, other⟩ :=
          coherent.origin?_of_mem_params (function_eq_ok.mp known) param
        exact absurd (origin.symm.trans other) (by simp)

/-- Three of the seven instructions define an integer. -/
theorem definitions_owned_diamond : diamond.Built ∧
    ∃ d, diamond.definitions diamondFunction .integers = .ok d ∧ d.blockCount = 4 ∧
      diamondFunction.instructions.length = 7 ∧ d.total = 3 := by
  obtain ⟨d, run, blocks, _, _, total⟩ :=
    (definitions_owned diamond_built).1 0 _ diamond_function .integers
  exact ⟨diamond_built, d, run, blocks, rfl, total⟩

end Program

end ReachingValues
