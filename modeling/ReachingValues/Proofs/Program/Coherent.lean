import ReachingValues.Proofs.Program.WellFormed

/-!
What holds in every program that can be built, whatever sessions were held on it, finished or given
up. A value has one place only where it is introduced, operands name what exists, and every block of a
function ends where it says so and not before.
-/

namespace ReachingValues

namespace Block

variable {b : Block} {valueCount blockCount m n : Nat} {i j : Instruction}

/-- A block under construction: an instruction that ends the block is the last one, later instructions
define later values, and operands name values and blocks that exist. -/
structure Filled (b : Block) (valueCount blockCount : Nat) : Prop where
  ends_last : ∀ n i, b.instructions[n]? = some i → i.isTerminator → n + 1 = b.instructions.size
  ascending : b.instructions.toList.Pairwise (fun i j => i.value < j.value)
  value_lt : ∀ i ∈ b.instructions, i.value < valueCount
  value_operand : ∀ i ∈ b.instructions, ∀ v, .value v ∈ i.operands → v < valueCount
  block_operand : ∀ i ∈ b.instructions, ∀ t, .block t ∈ i.operands → t < blockCount

theorem terminator_eq_some_iff : b.terminator = some i ↔
    b.instructions[b.instructions.size - 1]? = some i ∧ i.isTerminator := by
  rw [terminator, Option.filter_eq_some_iff, Array.back?_eq_getElem?]

namespace Filled

theorem empty (label : String) (valueCount blockCount : Nat) :
    Filled ⟨label, #[]⟩ valueCount blockCount where
  ends_last := by simp
  ascending := .nil
  value_lt := by simp
  value_operand := by simp
  block_operand := by simp

variable (filled : b.Filled valueCount blockCount)

include filled

theorem mono {values blocks : Nat} (valueLe : valueCount ≤ values) (blockLe : blockCount ≤ blocks) :
    b.Filled values blocks where
  ends_last := filled.ends_last
  ascending := filled.ascending
  value_lt i member := Nat.lt_of_lt_of_le (filled.value_lt i member) valueLe
  value_operand i member v used := Nat.lt_of_lt_of_le (filled.value_operand i member v used) valueLe
  block_operand i member t used := Nat.lt_of_lt_of_le (filled.block_operand i member t used) blockLe

/-- An instruction for a new value can follow as long as nothing has ended the block. -/
theorem push (opened : b.terminator = none) {opcode : Opcode} {operands : List Operand}
    (values : ∀ v, .value v ∈ operands → v < valueCount)
    (blocks : ∀ t, .block t ∈ operands → t < blockCount) :
    Filled ⟨b.label, b.instructions.push ⟨valueCount, opcode, operands⟩⟩ (valueCount + 1)
      blockCount where
  ends_last n i member ends := by
    simp only [Array.getElem?_push] at member
    split at member
    · rename_i last
      simp [last]
    · have last := filled.ends_last n i member ends
      have before : n = b.instructions.size - 1 := by omega
      rw [terminator_eq_some_iff.mpr ⟨before ▸ member, ends⟩] at opened
      cases opened
  ascending := by
    simp only [Array.toList_push, List.pairwise_append, List.mem_singleton, forall_eq]
    exact ⟨filled.ascending, List.pairwise_singleton _ _,
      fun i member => filled.value_lt i (Array.mem_toList_iff.mp member)⟩
  value_lt i member := by
    rcases Array.mem_push.mp member with old | rfl
    · exact Nat.lt_succ_of_lt (filled.value_lt i old)
    · exact Nat.lt_succ_self _
  value_operand i member v used := by
    rcases Array.mem_push.mp member with old | rfl
    · exact Nat.lt_succ_of_lt (filled.value_operand i old v used)
    · exact Nat.lt_succ_of_lt (values v used)
  block_operand i member t used := by
    rcases Array.mem_push.mp member with old | rfl
    · exact filled.block_operand i old t used
    · exact blocks t used

/-- A value is defined by one instruction of the block only. -/
theorem index_unique (first : b.instructions[m]? = some i) (second : b.instructions[n]? = some j)
    (same : i.value = j.value) : m = n := by
  have ordered := List.pairwise_iff_getElem.mp filled.ascending
  obtain ⟨atM, rfl⟩ := Array.getElem?_eq_some_iff.mp first
  obtain ⟨atN, rfl⟩ := Array.getElem?_eq_some_iff.mp second
  rcases Nat.lt_trichotomy m n with before | equal | after
  · have less := ordered m n atM atN before
    exact absurd same (Nat.ne_of_lt less)
  · exact equal
  · have less := ordered n m atN atM after
    exact absurd same.symm (Nat.ne_of_lt less)

/-- In a block that is ended, just the last instruction does so. -/
theorem isTerminator_iff (closed : b.terminator.isSome) (member : b.instructions[n]? = some i) :
    i.isTerminator ↔ n + 1 = b.instructions.size := by
  refine ⟨filled.ends_last n i member, fun last => ?_⟩
  obtain ⟨final, ended⟩ := Option.isSome_iff_exists.mp closed
  obtain ⟨atEnd, ends⟩ := terminator_eq_some_iff.mp ended
  have same : n = b.instructions.size - 1 := by omega
  rw [← same, member] at atEnd
  exact Option.some.inj atEnd ▸ ends

end Filled

end Block

namespace Program

variable {p q : Program} {v : ValueId} {k : FunctionId} {f : Function}

theorem value?_addValue (name : Option String) (ty : Ty) (origin : Origin) (v : ValueId) :
    (p.addValue name ty origin).2.value? v =
      if v = p.valueCount then some ⟨p.valueCount, name, ty, origin⟩ else p.value? v :=
  Array.getElem?_push

theorem valueCount_addValue (name : Option String) (ty : Ty) (origin : Origin) :
    (p.addValue name ty origin).2.valueCount = p.valueCount + 1 := by
  simp [addValue, valueCount]

theorem origin?_addValue_iff (name : Option String) (ty : Ty) (origin recorded : Origin)
    (v : ValueId) : (p.addValue name ty origin).2.origin? v = some recorded ↔
      if v = p.valueCount then origin = recorded else p.origin? v = some recorded := by
  rw [origin?, value?_addValue]
  split <;> simp [origin?]

theorem valueCount_addParameters (id : FunctionId) (position : Nat) (params : List (String × Ty)) :
    (p.addParameters id position params).2.valueCount = p.valueCount + params.length := by
  induction params generalizing p position with
  | nil => rfl
  | cons first rest ih =>
    rw [addParameters_cons]
    have later := ih (p := (p.addValue (some first.1) first.2 (.parameter id position)).2)
      (position + 1)
    rw [valueCount_addValue] at later
    simp only [List.length_cons]
    omega

/-- Handles are indices, the list of global variables is complete and in order, and functions consist
of blocks that are filled and ended. -/
structure Coherent (p : Program) : Prop extends p.WellFormed where
  value_id : ∀ v value, p.value? v = some value → value.id = v
  global_listed : ∀ v storage initial,
    p.origin? v = some (.globalVariable storage initial) → v ∈ p.globals
  globals_ascending : p.globals.toList.Pairwise (· < ·)
  filled : ∀ (k : FunctionId) f b content, p.functions[k]? = some f → f.block? b = some content →
    content.Filled p.valueCount f.blockCount
  closed : ∀ (k : FunctionId) f b content, p.functions[k]? = some f → f.block? b = some content →
    content.terminator.isSome

namespace Coherent

variable (coherent : p.Coherent)

include coherent

theorem addValue (name : Option String) (ty : Ty) {origin : Origin}
    (owned : ∀ storage initial, origin ≠ .globalVariable storage initial) :
    (p.addValue name ty origin).2.Coherent where
  toWellFormed := coherent.toWellFormed.addValue name ty origin
  value_id v value known := by
    rw [value?_addValue] at known
    split at known
    · rename_i new
      obtain rfl := Option.some.inj known
      exact new.symm
    · exact coherent.value_id v value known
  global_listed v storage initial known := by
    rw [origin?_addValue_iff] at known
    split at known
    · exact absurd known (owned storage initial)
    · exact coherent.global_listed v storage initial known
  globals_ascending := coherent.globals_ascending
  filled k f b content known block :=
    (coherent.filled k f b content known block).mono
      (extends_addValue name ty origin).valueCount_le (Nat.le_refl _)
  closed := coherent.closed

theorem addGlobal (name : String) (storage : Ty) (initial : Option Int) :
    (p.addGlobal name storage initial).2.Coherent where
  toWellFormed := coherent.toWellFormed.addGlobal name storage initial
  value_id v value known := by
    have found := (value?_addValue (p := p) (some name) .pointer
      (.globalVariable storage initial) v).symm.trans known
    split at found
    · rename_i new
      obtain rfl := Option.some.inj found
      exact new.symm
    · exact coherent.value_id v value found
  global_listed v storage' initial' known := by
    have recorded := (origin?_addValue_iff (p := p) (some name) .pointer
      (.globalVariable storage initial) (.globalVariable storage' initial') v).mp known
    split at recorded
    · rename_i new
      exact Array.mem_push.mpr (Or.inr new)
    · exact Array.mem_push.mpr (Or.inl (coherent.global_listed v _ _ recorded))
  globals_ascending := by
    have earlier : ∀ v ∈ p.globals, v < p.valueCount := fun v member => by
      obtain ⟨_, _, known⟩ := coherent.globals v member
      exact lt_valueCount_of_origin? known
    have pushed : (p.addGlobal name storage initial).2.globals.toList =
        p.globals.toList ++ [p.valueCount] := Array.toList_push
    rw [pushed, List.pairwise_append]
    refine ⟨coherent.globals_ascending, List.pairwise_singleton _ _, fun v member w last => ?_⟩
    obtain rfl := List.mem_singleton.mp last
    exact earlier v (Array.mem_toList_iff.mp member)
  filled k f b content known block := by
    have more : p.valueCount ≤ (p.addGlobal name storage initial).2.valueCount :=
      Extends.valueCount_le (extends_addValue _ _ _)
    exact (coherent.filled k f b content known block).mono more (Nat.le_refl _)
  closed := coherent.closed

theorem addParameters (id : FunctionId) (position : Nat) (params : List (String × Ty)) :
    (p.addParameters id position params).2.Coherent := by
  induction params generalizing p position with
  | nil => exact coherent
  | cons first rest ih =>
    rw [addParameters_cons]
    exact ih (coherent.addValue _ _ (by simp)) (position + 1)

end Coherent

end Program

/-- A draft on a coherent program, all blocks of which are filled so far. -/
structure Draft.Coherent (d : Draft) : Prop where
  wellFormed : d.WellFormed
  program : d.program.Coherent
  filled : ∀ (b : Node) content, d.blocks[b]? = some content →
    content.Filled d.program.valueCount d.blocks.size

namespace Draft

variable {d later : Draft}

/-- Operands that are not refused name what exists. -/
theorem operands_exist {operands : List Operand}
    (accepted : operands.findSome? d.operandError = none) :
    (∀ v, .value v ∈ operands → v < d.program.valueCount) ∧
      ∀ t, .block t ∈ operands → t < d.blocks.size := by
  have each := List.findSome?_eq_none_iff.mp accepted
  refine ⟨fun v member => ?_, fun t member => ?_⟩
  · simpa [operandError] using each _ member
  · simpa [operandError] using each _ member

/-- The edges can only be told when every block has been ended. -/
theorem closed_of_edges {edges : List (Node × Node)} {b : Node} {content : Block}
    (run : d.edges = .ok edges) (known : d.blocks[b]? = some content) :
    content.terminator.isSome := by
  have listed : (content, b) ∈ d.blocks.toList.zipIdx := by
    rw [List.mem_zipIdx_iff_getElem?, Array.getElem?_toList]
    exact known
  obtain ⟨out, branching, _⟩ := bind_eq_ok_iff.mp run
  obtain ⟨targets, each⟩ := ok_of_mapM branching listed
  cases ended : content.terminator with
  | none => simp [branches, ended] at each
  | some last => rfl

theorem closed_of_flow {g : Graph Block} {b : Node} {content : Block} (run : d.flow = .ok g)
    (known : d.blocks[b]? = some content) : content.terminator.isSome := by
  obtain ⟨edges, told, _⟩ := bind_eq_ok_iff.mp run
  exact closed_of_edges told known

namespace Coherent

theorem start {p : Program} (coherent : p.Coherent) (name : String) (params : List (String × Ty)) :
    (p.draft name params).Coherent where
  wellFormed := .start coherent.toWellFormed name params
  program := coherent.addParameters _ _ _
  filled b content known := by simp [Program.draft] at known

theorem addBlock (label : String) (coherent : d.Coherent) : (d.addBlock label).2.Coherent := by
  refine ⟨coherent.wellFormed.addBlock label, coherent.program, fun b content known => ?_⟩
  simp only [Draft.addBlock, Array.getElem?_push, Array.size_push] at known ⊢
  split at known
  · obtain rfl := Option.some.inj known
    exact .empty _ _ _
  · exact (coherent.filled b content known).mono (Nat.le_refl _) (Nat.le_succ _)

theorem append {block : Node} {name : Option String} {opcode : Opcode} {ty : Ty}
    {operands : List Operand} {v : ValueId}
    (run : d.append block name opcode ty operands = .ok (v, later)) (coherent : d.Coherent) :
    later.Coherent := by
  have wellFormed := coherent.wellFormed.append run
  obtain ⟨target, known, opened, accepted, rfl, rfl⟩ := append_ok run
  obtain ⟨values, blocks⟩ := operands_exist accepted
  refine ⟨wellFormed, coherent.program.addValue _ _ (by simp), fun b content atB => ?_⟩
  simp only [Array.getElem?_setIfInBounds, Array.size_setIfInBounds,
    Program.valueCount_addValue] at atB ⊢
  split at atB
  · split at atB
    · obtain rfl := Option.some.inj atB
      exact (coherent.filled block target known).push opened values blocks
    · cases atB
  · exact (coherent.filled b content atB).mono (Nat.le_succ _) (Nat.le_refl _)

theorem finish {id : FunctionId} {p : Program} (run : d.finish = .ok (id, p))
    (coherent : d.Coherent) : p.Coherent := by
  have wellFormed := coherent.wellFormed.finish run
  obtain ⟨_, flow, known, rfl, rfl⟩ := finish_ok run
  have labels := flow_ok known
  have blockOf : ∀ (k : FunctionId) f (b : Node) content,
      (d.program.functions.push ⟨d.id, d.name, d.params, flow⟩)[k]? = some f →
      f.block? b = some content → d.program.functions[k]? = some f ∨
        d.blocks[b]? = some content ∧ f.blockCount = d.blocks.size := by
    intro k f b content member block
    simp only [Array.getElem?_push] at member
    split at member
    · obtain rfl := Option.some.inj member
      rw [Function.block?, Graph.label?, labels] at block
      exact Or.inr ⟨block, congrArg Array.size labels⟩
    · exact Or.inl member
  refine ⟨wellFormed, coherent.program.value_id, coherent.program.global_listed,
    coherent.program.globals_ascending, fun k f b content member block => ?_,
    fun k f b content member block => ?_⟩
  · rcases blockOf k f b content member block with old | ⟨atB, size⟩
    · exact coherent.program.filled k f b content old block
    · exact size ▸ coherent.filled b content atB
  · rcases blockOf k f b content member block with old | ⟨atB, _⟩
    · exact coherent.program.closed k f b content old block
    · exact closed_of_flow known atB

theorem performAll {p : Program} (coherent : p.Coherent) (name : String)
    (params : List (String × Ty)) (calls : List Draft.Call) :
    ((p.draft name params).performAll calls).2.Coherent :=
  performAll_induct (fun _ label => addBlock label) (fun _ _ _ _ _ _ _ _ run => append run) calls
    (start coherent name params)

end Coherent

end Draft

namespace Program

variable {p : Program} {v : ValueId}

theorem coherent_empty (name : String) : (empty name).Coherent where
  globals v member := by simp [empty] at member
  functions k f known := by simp [empty] at known
  value_id v value known := by simp [empty, value?] at known
  global_listed v storage initial known := by simp [empty, origin?, value?] at known
  globals_ascending := .nil
  filled k f b content known := by simp [empty] at known
  closed k f b content known := by simp [empty] at known

theorem Built.coherent (built : p.Built) : p.Coherent := by
  refine built.induct coherent_empty ?_ ?_ ?_
  · exact fun p name storage initial coherent => coherent.addGlobal name storage initial
  · exact fun p name params calls coherent => (Draft.Coherent.performAll coherent name params
      calls).program
  · exact fun p name params calls id q coherent run =>
      (Draft.Coherent.performAll coherent name params calls).finish run

/-- A place where a value is introduced: an entry of the list of global variables, a position among
the parameters of a function, or an instruction in a block of a function. -/
inductive Place where
  | global (index : Nat)
  | parameter (function : FunctionId) (position : Nat)
  | result (function : FunctionId) (block : Node) (index : Nat)

/-- The value that is introduced at a place. -/
def introduced? (p : Program) : Place → Option ValueId
  | .global index => p.globals[index]?
  | .parameter k position => p.functions[k]?.bind (·.params[position]?)
  | .result k b index =>
    ((p.functions[k]?.bind (·.block? b)).bind (·.instructions[index]?)).map (·.value)

/-- What the arena records for a value that is introduced at a place. -/
def Place.Records : Place → Origin → Prop
  | .global _, origin => ∃ storage initial, origin = .globalVariable storage initial
  | .parameter k position, origin => origin = .parameter k position
  | .result k b _, origin => origin = .instruction k b

namespace Coherent

variable (coherent : p.Coherent)

include coherent

theorem exists_records {place : Place} (found : p.introduced? place = some v) :
    ∃ origin, p.origin? v = some origin ∧ place.Records origin := by
  cases place with
  | global index =>
    obtain ⟨storage, initial, known⟩ := coherent.globals v (Array.mem_of_getElem? found)
    exact ⟨_, known, storage, initial, rfl⟩
  | parameter k position =>
    obtain ⟨f, known, member⟩ := Option.bind_eq_some_iff.mp found
    exact ⟨_, (coherent.functions k f known).2.2.param position v member, rfl⟩
  | result k b index =>
    obtain ⟨i, member, rfl⟩ := Option.map_eq_some_iff.mp found
    obtain ⟨content, block, atIndex⟩ := Option.bind_eq_some_iff.mp member
    obtain ⟨f, known, atB⟩ := Option.bind_eq_some_iff.mp block
    exact ⟨_, (coherent.functions k f known).2.2.result b content i atB
      (Array.mem_of_getElem? atIndex), rfl⟩

theorem global_index_unique {i j : Nat} (first : p.globals[i]? = some v)
    (second : p.globals[j]? = some v) : i = j := by
  have distinct : p.globals.toList.Nodup :=
    coherent.globals_ascending.imp fun less => Nat.ne_of_lt less
  rw [← Array.getElem?_toList] at first second
  exact (List.getElem?_inj (List.getElem?_eq_some_iff.mp first).1 distinct).mp
    (first.trans second.symm)

/-- No value is introduced twice: what the arena records tells the place up to the index in a list,
and no list has an entry twice. -/
theorem place_unique {one other : Place} (first : p.introduced? one = some v)
    (second : p.introduced? other = some v) : one = other := by
  obtain ⟨origin, known, records⟩ := coherent.exists_records first
  obtain ⟨origin', known', records'⟩ := coherent.exists_records second
  obtain rfl := Option.some.inj (known.symm.trans known')
  cases one with
  | global i =>
    obtain ⟨storage, initial, rfl⟩ := records
    cases other with
    | global j => rw [coherent.global_index_unique first second]
    | parameter k position => cases records'
    | result k b index => cases records'
  | parameter k position =>
    obtain rfl := records
    cases other with
    | global j => simp [Place.Records] at records'
    | parameter k' position' => cases records'; rfl
    | result k b index => cases records'
  | result k b index =>
    obtain rfl := records
    cases other with
    | global j => simp [Place.Records] at records'
    | parameter k position => cases records'
    | result k' b' index' =>
      cases records'
      obtain ⟨i, member, value⟩ := Option.map_eq_some_iff.mp first
      obtain ⟨j, member', value'⟩ := Option.map_eq_some_iff.mp second
      obtain ⟨content, block, atIndex⟩ := Option.bind_eq_some_iff.mp member
      obtain ⟨f, function, atB⟩ := Option.bind_eq_some_iff.mp block
      rw [block, Option.bind_some] at member'
      have filled := coherent.filled k f b content function atB
      rw [filled.index_unique atIndex member' (value.trans value'.symm)]

end Coherent

/-- What a program is like after any sessions, finished or not. -/
theorem invariant_of_built (built : p.Built) :
    (∀ v < p.valueCount, ∃ value, p.value? v = some value ∧ value.id = v) ∧
    p.globals.toList.Pairwise (· < ·) ∧
    (∀ v, v ∈ p.globals ↔ ∃ value, p.value? v = some value ∧ value.isGlobal) ∧
    (∀ v one other, p.introduced? one = some v → p.introduced? other = some v → one = other) ∧
    ∀ (k : FunctionId) f, p.functions[k]? = some f →
      f.id = k ∧ 0 < f.blockCount ∧
      (∀ (j : Nat) v, f.params[j]? = some v → p.origin? v = some (.parameter k j)) ∧
      ∀ b content, f.block? b = some content →
        0 < content.instructions.size ∧
        ∀ (n : Nat) i, content.instructions[n]? = some i →
          p.origin? i.value = some (.instruction k b) ∧
          (i.isTerminator ↔ n + 1 = content.instructions.size) ∧
          (∀ v, .value v ∈ i.operands → v < p.valueCount) ∧
          ∀ t, .block t ∈ i.operands → t < f.blockCount := by
  have coherent := built.coherent
  refine ⟨fun v inside => ?_, coherent.globals_ascending, fun v => ?_,
    fun v one other first second => coherent.place_unique first second, fun k f known => ?_⟩
  · exact ⟨_, Array.getElem?_eq_getElem inside,
      coherent.value_id v _ (Array.getElem?_eq_getElem inside)⟩
  · constructor
    · intro member
      obtain ⟨storage, initial, recorded⟩ := coherent.globals v member
      obtain ⟨value, known, origin⟩ := Option.map_eq_some_iff.mp recorded
      exact ⟨value, known, by simp [Value.isGlobal, origin]⟩
    · rintro ⟨value, known, isGlobal⟩
      cases origin : value.origin with
      | globalVariable storage initial =>
        exact coherent.global_listed v storage initial (by simp [origin?, known, origin])
      | parameter k position => simp [Value.isGlobal, origin] at isGlobal
      | instruction k b => simp [Value.isGlobal, origin] at isGlobal
  · obtain ⟨id, nonempty, owns⟩ := coherent.functions k f known
    refine ⟨id, nonempty, owns.param, fun b content block => ?_⟩
    have filled := coherent.filled k f b content known block
    have closed := coherent.closed k f b content known block
    obtain ⟨last, ended⟩ := Option.isSome_iff_exists.mp closed
    have atEnd := (Block.terminator_eq_some_iff.mp ended).1
    refine ⟨Nat.zero_lt_of_lt (Array.getElem?_eq_some_iff.mp atEnd).1, fun n i member => ?_⟩
    have listed := Array.mem_of_getElem? member
    exact ⟨owns.result b content i block listed, filled.isTerminator_iff closed member,
      filled.value_operand i listed, filled.block_operand i listed⟩

/-- A function is given up and then drafted again under the same handle, with one call refused
because its block does not exist. -/
def redrafting : List Step :=
  [.globalVariable "g" (.int 32) none,
    .session ⟨"f", [("n", .int 32)],
      [.block "entry", .binary 0 "x" .add (.int 32) (.value 1) (.immediate 1)], false⟩,
    .session ⟨"f", [("n", .int 32)], [.block "entry", .ret 7 none, .ret 0 (some 3)], true⟩]

def redrafted : Program := (empty "sample").performAll redrafting

theorem redrafted_built : redrafted.Built := ⟨_, _, rfl⟩

/-- Of the two values recorded as the parameter of the function, one is introduced, in one place. -/
theorem invariant_of_built_redrafted :
    redrafted.Built ∧ redrafted.introduced? (.parameter 0 0) = some 3 ∧
      (∀ place, redrafted.introduced? place = some 3 → place = .parameter 0 0) ∧
      ∃ f content, redrafted.functions[0]? = some f ∧ f.block? 0 = some content ∧
        content.instructions.size = 1 ∧ redrafted.origin? 4 = some (.instruction 0 0) := by
  obtain ⟨_, _, _, places, functions⟩ := invariant_of_built redrafted_built
  have parameter : redrafted.introduced? (.parameter 0 0) = some 3 := rfl
  refine ⟨redrafted_built, parameter, fun place found => places 3 _ _ found parameter, ?_⟩
  obtain ⟨_, _, _, blocks⟩ := functions 0 _ rfl
  obtain ⟨_, instructions⟩ := blocks 0 _ rfl
  exact ⟨_, _, rfl, rfl, rfl, (instructions 0 _ rfl).1⟩

end Program

end ReachingValues
