import ReachingValues.Analysis.Definitions
import ReachingValues.IndexSet.Lemmas
import ReachingValues.Proofs.Analysis.Propagation
import ReachingValues.Proofs.Program.WellFormed

/-!
What is collected from a function of a well formed program. Every value has one origin, so at most
one block defines it, and none defines a value of the seed.
-/

namespace ReachingValues

namespace Program

variable {p : Program} {f : Function} {k : FunctionId} {tracked : TyClasses} {b : Node}
  {v : ValueId} {value : Value}

/-- The value is a global variable with storage of a tracked type. -/
def TracksGlobal (p : Program) (tracked : TyClasses) (v : ValueId) : Prop :=
  v ∈ p.globals ∧ ∃ storage initial,
    p.origin? v = some (.globalVariable storage initial) ∧ storage.isTracked tracked

/-- The value is a parameter of the function and its own type is tracked. -/
def TracksParameter (p : Program) (f : Function) (tracked : TyClasses) (v : ValueId) : Prop :=
  v ∈ f.params ∧ ∃ value, p.value? v = some value ∧ value.ty.isTracked tracked

/-- The value is produced by the block and its type is tracked. -/
def TracksResult (p : Program) (f : Function) (tracked : TyClasses) (b : Node) (v : ValueId) :
    Prop :=
  f.Produces b v ∧ ∃ value, p.value? v = some value ∧ value.ty.isTracked tracked

theorem tracks_iff {tyOf : Value → Ty} : p.tracks tyOf tracked v ↔
    ∃ value, p.value? v = some value ∧ (tyOf value).isTracked tracked := by
  unfold tracks
  cases p.value? v <;> simp

theorem origin?_eq_some {origin : Origin} :
    p.origin? v = some origin ↔ ∃ value, p.value? v = some value ∧ value.origin = origin := by
  simp [origin?]

/-- A result is sorted by its own type. -/
theorem tracks_result_iff (known : p.origin? v = some (.instruction k b)) :
    p.tracks Value.contentTy tracked v ↔
      ∃ value, p.value? v = some value ∧ value.ty.isTracked tracked := by
  obtain ⟨value, atV, origin⟩ := origin?_eq_some.mp known
  have same : value.contentTy = value.ty := by rw [Value.contentTy, origin]
  simp [tracks_iff, atV, same]

/-- A global variable is sorted by the type of its storage. -/
theorem tracks_global_iff {storage : Ty} {initial : Option Int}
    (known : p.origin? v = some (.globalVariable storage initial)) :
    p.tracks Value.contentTy tracked v ↔ storage.isTracked tracked := by
  obtain ⟨value, atV, origin⟩ := origin?_eq_some.mp known
  have same : value.contentTy = storage := by rw [Value.contentTy, origin]
  simp [tracks_iff, atV, same]

/-- Only values that the program knows are tracked, so a set has room for them, whatever the
instructions are. -/
theorem definedBy_ok (p : Program) (tracked : TyClasses) (instructions : Array Instruction) :
    ∃ s, p.definedBy tracked instructions = .ok s ∧ s.capacity = p.valueCount ∧
      ∀ v, s.contains v ↔
        (∃ i ∈ instructions, i.value = v) ∧ p.tracks Value.contentTy tracked v := by
  have room : ∀ v ∈ (instructions.toList.map (·.value)).filter (p.tracks Value.contentTy tracked),
      v < p.valueCount := by
    intro v member
    obtain ⟨value, atV, _⟩ := tracks_iff.mp (List.mem_filter.mp member).2
    exact (Array.getElem?_eq_some_iff.mp atV).1
  obtain ⟨s, run, size, members⟩ := IndexSet.ofList_ok room
  refine ⟨s, run, size, fun v => ?_⟩
  simp [members]

/-- The definitions of any function are collected as sets over the values of the program. -/
theorem exists_definitions (p : Program) (f : Function) (tracked : TyClasses) :
    ∃ d, p.definitions f tracked = .ok d ∧ d.Over p.valueCount ∧
      ∀ b v, d.Defines b v ↔ f.Produces b v ∧ p.tracks Value.contentTy tracked v := by
  obtain ⟨sets, run, length, entries⟩ := mapM_ok
    (fun block : Block => p.definedBy tracked block.instructions) f.flow.labels.toList
    (fun block s => s.capacity = p.valueCount ∧ ∀ v, s.contains v ↔
      (∃ i ∈ block.instructions, i.value = v) ∧ p.tracks Value.contentTy tracked v)
    fun block _ => p.definedBy_ok tracked block.instructions
  have paired : ∀ (b : Node) own, sets[b]? = some own → ∃ block, f.block? b = some block ∧
      own.capacity = p.valueCount ∧ ∀ v, own.contains v ↔
        (∃ i ∈ block.instructions, i.value = v) ∧ p.tracks Value.contentTy tracked v := by
    intro b own atB
    have inside : b < f.flow.labels.toList.length := by
      rw [← length]
      exact (List.getElem?_eq_some_iff.mp atB).1
    obtain ⟨s, found, size, members⟩ := entries b _ (List.getElem?_eq_getElem inside)
    obtain rfl := Option.some.inj (atB.symm.trans found)
    refine ⟨_, ?_, size, members⟩
    rw [Function.block?, Graph.label?, ← Array.getElem?_toList, List.getElem?_eq_getElem inside]
  have get : ∀ b, (⟨sets.toArray⟩ : Definitions).get? b = sets[b]? := fun b => by
    simp [Definitions.get?]
  refine ⟨⟨sets.toArray⟩, ?_, fun b own atB => ?_, fun b v => ?_⟩
  · rw [definitions, run, ok_bind, pure_eq_ok]
  · obtain ⟨_, _, size, _⟩ := paired b own ((get b).symm.trans atB)
    exact size
  · unfold Definitions.Defines
    simp only [get]
    constructor
    · rintro ⟨own, atB, member⟩
      obtain ⟨block, content, _, members⟩ := paired b own atB
      obtain ⟨⟨i, listed, value⟩, tracked⟩ := (members v).mp member
      exact ⟨⟨block, i, content, listed, value⟩, tracked⟩
    · rintro ⟨⟨content, i, block, listed, value⟩, tracked⟩
      have atB : f.flow.labels.toList[b]? = some content := by
        rw [Array.getElem?_toList]
        exact block
      obtain ⟨own, found, _, members⟩ := entries b content atB
      exact ⟨own, found, (members v).mpr ⟨⟨i, listed, value⟩, tracked⟩⟩

/-- Every block has a set, be it empty. -/
theorem blockCount_definitions {d : Definitions} (run : p.definitions f tracked = .ok d) :
    d.blockCount = f.blockCount := by
  unfold definitions at run
  cases collected : f.flow.labels.toList.mapM (fun block => p.definedBy tracked block.instructions)
    with
  | error error => simp [collected] at run
  | ok sets =>
    rw [collected, ok_bind] at run
    obtain rfl := Except.ok.inj run
    exact length_of_mapM collected

theorem exists_get?_definitions {d : Definitions} (run : p.definitions f tracked = .ok d)
    (inside : b < f.blockCount) : ∃ own, d.get? b = some own := by
  rw [← blockCount_definitions run] at inside
  exact ⟨d.sets[b], Array.getElem?_eq_getElem inside⟩

theorem WellFormed.tracksGlobal_iff (wellFormed : p.WellFormed) :
    p.TracksGlobal tracked v ↔ v ∈ p.globals ∧ p.tracks Value.contentTy tracked v := by
  refine and_congr_right fun member => ?_
  obtain ⟨storage, initial, origin⟩ := wellFormed.globals v member
  simp [tracks_global_iff origin, origin]

namespace WellFormed

variable (wellFormed : p.WellFormed) (known : p.functions[k]? = some f)

include wellFormed known

theorem origin?_of_produces (produces : f.Produces b v) :
    p.origin? v = some (.instruction k b) := by
  obtain ⟨content, i, block, member, rfl⟩ := produces
  exact (wellFormed.functions k f known).2.2.result b content i block member

theorem produces_unique {c : Node} (one : f.Produces b v) (other : f.Produces c v) : b = c := by
  have same := (wellFormed.origin?_of_produces known one).symm.trans
    (wellFormed.origin?_of_produces known other)
  simpa using same

theorem origin?_of_mem_params (member : v ∈ f.params) :
    ∃ position, p.origin? v = some (.parameter k position) := by
  obtain ⟨position, atPosition⟩ := List.getElem?_of_mem member
  exact ⟨position, (wellFormed.functions k f known).2.2.param position v atPosition⟩

/-- What an instruction produces is not in the seed. -/
theorem not_seeded_of_produces (produces : f.Produces b v) :
    ¬ p.TracksGlobal tracked v ∧ ¬ p.TracksParameter f tracked v := by
  have origin := wellFormed.origin?_of_produces known produces
  refine ⟨fun ⟨_, storage, initial, other, _⟩ => ?_, fun ⟨member, _⟩ => ?_⟩
  · exact absurd (origin.symm.trans other) (by simp)
  · obtain ⟨position, other⟩ := wellFormed.origin?_of_mem_params known member
    exact absurd (origin.symm.trans other) (by simp)

theorem definitions_ok (tracked : TyClasses) :
    ∃ d, p.definitions f tracked = .ok d ∧ d.Over p.valueCount ∧
      ∀ b v, d.Defines b v ↔ p.TracksResult f tracked b v := by
  obtain ⟨d, run, uniform, defines⟩ := p.exists_definitions f tracked
  refine ⟨d, run, uniform, fun b v => (defines b v).trans (and_congr_right fun produces => ?_)⟩
  exact tracks_result_iff (wellFormed.origin?_of_produces known produces)

theorem seed_ok (settings : Settings) :
    ∃ s, p.seed f settings = .ok s ∧ s.capacity = p.valueCount ∧
      ∀ v, s.contains v ↔
        settings.includeGlobals ∧ p.TracksGlobal settings.tracked v ∨
          p.TracksParameter f settings.tracked v := by
  have parameter : ∀ v, p.TracksParameter f settings.tracked v ↔
      v ∈ f.params ∧ p.tracks Value.ty settings.tracked v :=
    fun v => and_congr_right fun _ => tracks_iff.symm
  have listed : ∀ v, v ∈ (if settings.includeGlobals then p.globals.toList else []) ↔
      settings.includeGlobals ∧ v ∈ p.globals := fun v => by
    split <;> simp_all
  have room : ∀ v ∈ (if settings.includeGlobals then p.globals.toList else []).filter
        (p.tracks Value.contentTy settings.tracked) ++
      f.params.filter (p.tracks Value.ty settings.tracked), v < p.valueCount := by
    intro v member
    simp only [List.mem_append, List.mem_filter, listed] at member
    rcases member with ⟨⟨_, member⟩, _⟩ | ⟨member, _⟩
    · obtain ⟨_, _, origin⟩ := wellFormed.globals v member
      exact lt_valueCount_of_origin? origin
    · obtain ⟨_, origin⟩ := wellFormed.origin?_of_mem_params known member
      exact lt_valueCount_of_origin? origin
  obtain ⟨s, run, size, members⟩ := IndexSet.ofList_ok room
  refine ⟨s, run, size, fun v => ?_⟩
  rw [members, List.mem_append, List.mem_filter, List.mem_filter, listed,
    wellFormed.tracksGlobal_iff, parameter, and_assoc]

end WellFormed

/-- What the analysis of a function starts from. -/
structure Collects (p : Program) (f : Function) (settings : Settings) (d : Definitions)
    (seed : ValueSet) : Prop where
  definitions : p.definitions f settings.tracked = .ok d
  seeded : p.seed f settings = .ok seed
  uniform : d.Over seed.capacity
  defines_iff : ∀ b v, d.Defines b v ↔ p.TracksResult f settings.tracked b v
  seed_iff : ∀ v, seed.contains v ↔
    settings.includeGlobals ∧ p.TracksGlobal settings.tracked v ∨
      p.TracksParameter f settings.tracked v

/-- A tree over the blocks of the function asks for no more room than there is. -/
theorem Collects.admits {settings : Settings} {d : Definitions} {seed : ValueSet} {tree : TreeView}
    (collects : p.Collects f settings d seed)
    (blocks : ∀ b, tree.Leads tree.root b → b < f.blockCount) : d.Admits tree seed.capacity :=
  collects.uniform.admits fun b leads =>
    Definitions.lt_room (blockCount_definitions collects.definitions ▸ blocks b leads)

theorem WellFormed.collects (wellFormed : p.WellFormed) (known : p.functions[k]? = some f)
    (settings : Settings) : ∃ d seed, p.Collects f settings d seed := by
  obtain ⟨d, definitions, uniform, defines⟩ := wellFormed.definitions_ok known settings.tracked
  obtain ⟨seed, seeded, size, members⟩ := wellFormed.seed_ok known settings
  exact ⟨d, seed, definitions, seeded, size ▸ uniform, defines, members⟩

end Program

end ReachingValues
