import ReachingValues.Proofs.Program.Growth

/-!
In every program that can be built the arena records truly where a value comes from. A value has one
origin, so it is defined in one place only: it is not a global variable and a parameter or a result
at once, and no two blocks define it.
-/

namespace ReachingValues

/-- Some instruction of the block produces the value. -/
def Function.Produces (f : Function) (b : Node) (v : ValueId) : Prop :=
  ∃ content i, f.block? b = some content ∧ i ∈ content.instructions ∧ i.value = v

namespace Program

variable {p q : Program} {v w : ValueId} {origin : Origin}

def origin? (p : Program) (v : ValueId) : Option Origin := (p.value? v).map (·.origin)

/-- Every value of the first program has the same origin in the second one. -/
def Extends (q p : Program) : Prop :=
  ∀ v origin, p.origin? v = some origin → q.origin? v = some origin

theorem lt_valueCount_of_origin? (known : p.origin? v = some origin) : v < p.valueCount := by
  refine Nat.lt_of_not_le fun outside => ?_
  have none : p.values[v]? = none := Array.getElem?_eq_none outside
  simp [origin?, value?, none] at known

theorem function_eq_ok {k : FunctionId} {f : Function} :
    p.function k = .ok f ↔ p.functions[k]? = some f := by
  unfold function
  split <;> simp_all

section AddValue

variable (name : Option String) (ty : Ty) (origin : Origin)

theorem extends_addValue : (p.addValue name ty origin).2.Extends p := by
  intro v known was
  have inside : v < p.values.size := lt_valueCount_of_origin? was
  simpa [origin?, value?, addValue, Array.getElem?_push, Nat.ne_of_lt inside] using was

theorem origin?_addValue : (p.addValue name ty origin).2.origin? p.valueCount = some origin := by
  simp [origin?, value?, addValue, valueCount]

end AddValue

theorem exists_origin? (inside : v < p.valueCount) : ∃ origin, p.origin? v = some origin :=
  ⟨_, congrArg (Option.map Value.origin) (Array.getElem?_eq_getElem inside)⟩

theorem Extends.origin?_eq (later : q.Extends p) (inside : v < p.valueCount) :
    q.origin? v = p.origin? v := by
  obtain ⟨origin, known⟩ := exists_origin? inside
  rw [known, later v origin known]

theorem Extends.valueCount_le (later : q.Extends p) : p.valueCount ≤ q.valueCount := by
  refine Nat.le_of_not_lt fun fewer => ?_
  obtain ⟨origin, known⟩ := exists_origin? fewer
  exact Nat.lt_irrefl _ (lt_valueCount_of_origin? (later _ origin known))

theorem Extends.trans {o : Program} (upper : q.Extends p) (lower : p.Extends o) : q.Extends o :=
  fun v origin known => upper v origin (lower v origin known)

section AddParameters

variable (id : FunctionId) (position : Nat) (params : List (String × Ty))

theorem addParameters_cons (first : String × Ty) :
    p.addParameters id position (first :: params) =
      let (v, q) := p.addValue (some first.1) first.2 (.parameter id position)
      let (vs, q) := q.addParameters id (position + 1) params
      (v :: vs, q) :=
  rfl

theorem extends_addParameters : (p.addParameters id position params).2.Extends p := by
  induction params generalizing p position with
  | nil => exact fun _ _ known => known
  | cons first rest ih =>
    rw [addParameters_cons]
    exact (ih (position + 1)).trans (extends_addValue _ _ _)

theorem globals_addParameters : (p.addParameters id position params).2.globals = p.globals := by
  induction params generalizing p position with
  | nil => rfl
  | cons first rest ih =>
    rw [addParameters_cons]
    exact ih (position + 1)

theorem functions_addParameters :
    (p.addParameters id position params).2.functions = p.functions := by
  induction params generalizing p position with
  | nil => rfl
  | cons first rest ih =>
    rw [addParameters_cons]
    exact ih (position + 1)

/-- The values of parameters are told apart by their positions. -/
theorem origin?_addParameters (j : Nat)
    (member : (p.addParameters id position params).1[j]? = some v) :
    (p.addParameters id position params).2.origin? v = some (.parameter id (position + j)) := by
  induction params generalizing p position j with
  | nil => simp [addParameters] at member
  | cons first rest ih =>
    rw [addParameters_cons] at member ⊢
    cases j with
    | zero =>
      obtain rfl : p.valueCount = v := Option.some.inj member
      exact extends_addParameters id (position + 1) rest _ _ (origin?_addValue _ _ _)
    | succ j =>
      rw [← Nat.add_assoc, Nat.add_right_comm]
      exact ih (position + 1) j (by simpa using member)

end AddParameters

/-- The arena knows the parameters and the instructions of a function as such. -/
structure Owns (p : Program) (id : FunctionId) (params : List ValueId) (blocks : Array Block) :
    Prop where
  param : ∀ j v, params[j]? = some v → p.origin? v = some (.parameter id j)
  result : ∀ b content i, blocks[b]? = some content → i ∈ content.instructions →
    p.origin? i.value = some (.instruction id b)

theorem Owns.extend {id : FunctionId} {params : List ValueId} {blocks : Array Block}
    (owns : p.Owns id params blocks) (later : q.Extends p) : q.Owns id params blocks where
  param j v member := later v _ (owns.param j v member)
  result b content i block member := later i.value _ (owns.result b content i block member)

structure WellFormed (p : Program) : Prop where
  globals : ∀ v ∈ p.globals, ∃ storage initial, p.origin? v = some (.globalVariable storage initial)
  functions : ∀ k f, p.functions[k]? = some f →
    f.id = k ∧ 0 < f.blockCount ∧ p.Owns k f.params f.flow.labels

namespace WellFormed

variable (wellFormed : p.WellFormed)

include wellFormed

theorem extend (later : q.Extends p) (globals : q.globals = p.globals)
    (functions : q.functions = p.functions) : q.WellFormed where
  globals v member := by
    obtain ⟨storage, initial, known⟩ := wellFormed.globals v (globals ▸ member)
    exact ⟨storage, initial, later v _ known⟩
  functions k f known := by
    obtain ⟨id, nonempty, owns⟩ := wellFormed.functions k f (functions ▸ known)
    exact ⟨id, nonempty, owns.extend later⟩

theorem addValue (name : Option String) (ty : Ty) (origin : Origin) :
    (p.addValue name ty origin).2.WellFormed :=
  wellFormed.extend (extends_addValue name ty origin) rfl rfl

theorem addGlobal (name : String) (storage : Ty) (initial : Option Int) :
    (p.addGlobal name storage initial).2.WellFormed := by
  have later := wellFormed.addValue (some name) .pointer (.globalVariable storage initial)
  refine ⟨fun v member => ?_, fun k f known => ?_⟩
  · rcases Array.mem_push.mp member with old | rfl
    · exact later.globals v old
    · exact ⟨storage, initial, origin?_addValue _ _ _⟩
  · obtain ⟨id, nonempty, owns⟩ := later.functions k f known
    exact ⟨id, nonempty, owns.param, owns.result⟩

end WellFormed

end Program

/-- A draft of the next function, whose values the arena knows already. -/
structure Draft.WellFormed (d : Draft) : Prop where
  program : d.program.WellFormed
  id_eq : d.id = d.program.functions.size
  owns : d.program.Owns d.id d.params d.blocks

namespace Draft.WellFormed

variable {d later : Draft}

theorem start {p : Program} (wellFormed : p.WellFormed) (name : String)
    (params : List (String × Ty)) : (p.draft name params).WellFormed where
  program := wellFormed.extend (Program.extends_addParameters _ _ _)
    (Program.globals_addParameters _ _ _) (Program.functions_addParameters _ _ _)
  id_eq := congrArg Array.size (Program.functions_addParameters _ _ _).symm
  owns := {
    param := fun j v member => by
      have known := Program.origin?_addParameters _ _ _ j member
      rwa [Nat.zero_add] at known
    result := fun b content i known => by simp [Program.draft] at known }

theorem addBlock (label : String) (wellFormed : d.WellFormed) :
    (d.addBlock label).2.WellFormed := by
  refine ⟨wellFormed.program, wellFormed.id_eq, wellFormed.owns.param, fun b content i known => ?_⟩
  simp only [Draft.addBlock, Array.getElem?_push] at known
  split at known
  · obtain rfl := Option.some.inj known
    intro member
    simp at member
  · exact wellFormed.owns.result b content i known

theorem append {block : Node} {name : Option String} {opcode : Opcode} {ty : Ty}
    {operands : List Operand} {v : ValueId}
    (run : d.append block name opcode ty operands = .ok (v, later)) (wellFormed : d.WellFormed) :
    later.WellFormed := by
  obtain ⟨target, known, _, _, rfl, rfl⟩ := append_ok run
  have owns := wellFormed.owns.extend (Program.extends_addValue name ty (.instruction d.id block))
  refine ⟨wellFormed.program.addValue _ _ _, wellFormed.id_eq, owns.param, fun b content i => ?_⟩
  simp only [Array.getElem?_setIfInBounds]
  split
  · rename_i same
    subst same
    split
    · intro extended member
      obtain rfl := Option.some.inj extended
      rcases Array.mem_push.mp member with old | rfl
      · exact owns.result block target i known old
      · exact Program.origin?_addValue _ _ _
    · intro impossible
      cases impossible
  · exact owns.result b content i

theorem finish {id : FunctionId} {p : Program} (run : d.finish = .ok (id, p))
    (wellFormed : d.WellFormed) : p.WellFormed := by
  obtain ⟨nonempty, flow, known, rfl, rfl⟩ := finish_ok run
  have labels := flow_ok known
  refine ⟨wellFormed.program.globals, fun k f member => ?_⟩
  simp only [Array.getElem?_push] at member
  split at member
  · rename_i last
    obtain rfl := Option.some.inj member
    refine ⟨wellFormed.id_eq.trans last.symm, ?_, ?_⟩
    · rw [Function.blockCount, Graph.nodeCount, labels]
      exact nonempty
    · rw [labels, last, ← wellFormed.id_eq]
      exact ⟨wellFormed.owns.param, wellFormed.owns.result⟩
  · obtain ⟨id, blocks, owns⟩ := wellFormed.program.functions k f member
    exact ⟨id, blocks, owns.param, owns.result⟩

theorem performAll {p : Program} (wellFormed : p.WellFormed) (name : String)
    (params : List (String × Ty)) (calls : List Draft.Call) :
    ((p.draft name params).performAll calls).2.WellFormed :=
  performAll_induct (fun _ label => addBlock label) (fun _ _ _ _ _ _ _ _ run => append run) calls
    (start wellFormed name params)

end Draft.WellFormed

/-- Every program that can be built is well formed. -/
theorem Program.Built.wellFormed {p : Program} (built : p.Built) : p.WellFormed := by
  refine built.induct (fun name => ?_) ?_ ?_ ?_
  · exact ⟨fun v member => by simp [Program.empty] at member,
      fun k f known => by simp [Program.empty] at known⟩
  · exact fun p name storage initial wellFormed => wellFormed.addGlobal name storage initial
  · exact fun p name params calls wellFormed =>
      (Draft.WellFormed.performAll wellFormed name params calls).program
  · exact fun p name params calls id q wellFormed run =>
      (Draft.WellFormed.performAll wellFormed name params calls).finish run

end ReachingValues
