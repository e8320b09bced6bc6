import ReachingValues.Proofs.Program.Coherent

/-!
Which function a value belongs to. A session makes its values before its function exists and records
with them the handle that the function will get. If the session ends in the function, this record is
true forever. If it does not, the values stay without a function while their handle goes to the next
one, and then the record is false.
-/

namespace ReachingValues

/-- The value is a parameter of the function or a result in one of its blocks. -/
def Function.Introduces (f : Function) (v : ValueId) : Prop :=
  v ∈ f.params ∨ ∃ b, f.Produces b v

namespace Program

variable {p q : Program} {v : ValueId} {k : FunctionId} {f : Function}

/-- The parameters of a draft are the values that were made for them. -/
theorem mem_addParameters (id : FunctionId) (position : Nat) (params : List (String × Ty)) {v : Nat} :
    v ∈ (p.addParameters id position params).1 ↔
      p.valueCount ≤ v ∧ v < p.valueCount + params.length := by
  induction params generalizing p position with
  | nil =>
    simp only [addParameters, List.not_mem_nil, List.length_nil, Nat.add_zero, false_iff]
    omega
  | cons first rest ih =>
    have later := ih (p := (p.addValue (some first.1) first.2 (.parameter id position)).2)
      (position + 1)
    rw [valueCount_addValue] at later
    have members : v ∈ (p.addParameters id position (first :: rest)).1 ↔ v = p.valueCount ∨
        v ∈ ((p.addValue (some first.1) first.2 (.parameter id position)).2.addParameters id
          (position + 1) rest).1 := List.mem_cons
    rw [members, later, List.length_cons]
    omega

/-- A function of a well formed program has values of the arena only. -/
theorem WellFormed.lt_valueCount_of_introduces (wellFormed : p.WellFormed)
    (known : p.functions[k]? = some f) (introduces : f.Introduces v) : v < p.valueCount := by
  have owns := (wellFormed.functions k f known).2.2
  rcases introduces with member | ⟨b, content, i, block, listed, rfl⟩
  · obtain ⟨position, atPosition⟩ := List.getElem?_of_mem member
    exact lt_valueCount_of_origin? (owns.param position v atPosition)
  · exact lt_valueCount_of_origin? (owns.result b content i block listed)

end Program

namespace Draft

variable {p : Program} {d later : Draft} {v : ValueId}

/-- The value is a parameter of the draft or a result in one of its blocks. -/
def Introduces (d : Draft) (v : ValueId) : Prop :=
  v ∈ d.params ∨ ∃ (b : Node) (content : Block) (i : Instruction),
    d.blocks[b]? = some content ∧ i ∈ content.instructions ∧ i.value = v

theorem introduces_draft (name : String) (params : List (String × Ty)) :
    (p.draft name params).Introduces v ↔ v ∈ (p.draft name params).params :=
  or_iff_left fun ⟨b, content, _, known, _⟩ => by simp [Program.draft] at known

theorem introduces_addBlock (label : String) :
    (d.addBlock label).2.Introduces v ↔ d.Introduces v := by
  refine or_congr_right ?_
  simp only [Draft.addBlock, Array.getElem?_push]
  constructor
  · rintro ⟨b, content, i, known, listed, value⟩
    split at known
    · obtain rfl := Option.some.inj known
      simp at listed
    · exact ⟨b, content, i, known, listed, value⟩
  · rintro ⟨b, content, i, known, listed, value⟩
    have inside := (Array.getElem?_eq_some_iff.mp known).1
    exact ⟨b, content, i, by rw [if_neg (Nat.ne_of_lt inside)]; exact known, listed, value⟩

/-- Besides the new instruction the blocks have what they had. -/
theorem introduces_append {block : Node} {name : Option String} {opcode : Opcode} {ty : Ty}
    {operands : List Operand} {new : ValueId}
    (run : d.append block name opcode ty operands = .ok (new, later)) :
    later.Introduces v ↔ d.Introduces v ∨ v = d.program.valueCount := by
  obtain ⟨target, known, _, _, rfl, rfl⟩ := append_ok run
  have inside := (Array.getElem?_eq_some_iff.mp known).1
  have extended : (d.blocks.setIfInBounds block ⟨target.label,
      target.instructions.push ⟨d.program.valueCount, opcode, operands⟩⟩)[block]? =
      some ⟨target.label, target.instructions.push ⟨d.program.valueCount, opcode, operands⟩⟩ := by
    simp [inside]
  unfold Introduces
  rw [or_assoc]
  refine or_congr_right ⟨?_, ?_⟩
  · rintro ⟨b, content, i, atB, listed, rfl⟩
    simp only [Array.getElem?_setIfInBounds] at atB
    split at atB
    · obtain rfl := Option.some.inj atB
      rcases Array.mem_push.mp listed with old | rfl
      · exact Or.inl ⟨block, target, i, known, old, rfl⟩
      · exact Or.inr rfl
    · exact Or.inl ⟨b, content, i, atB, listed, rfl⟩
  · rintro (⟨b, content, i, atB, listed, rfl⟩ | rfl)
    · by_cases same : b = block
      · subst same
        obtain rfl := Option.some.inj (known.symm.trans atB)
        exact ⟨b, _, i, extended, Array.mem_push_of_mem _ listed, rfl⟩
      · exact ⟨b, content, i, by simpa [Ne.symm same] using atB, listed, rfl⟩
    · exact ⟨block, _, _, extended, Array.mem_push_self, rfl⟩

/-- The draft was begun on the program: it has changed nothing that was there, and it has introduced
just the values that were made since. -/
structure BegunOn (d : Draft) (p : Program) : Prop where
  kept : d.program.Extends p
  globals : d.program.globals = p.globals
  functions : d.program.functions = p.functions
  introduces_iff : ∀ v : Nat, d.Introduces v ↔ p.valueCount ≤ v ∧ v < d.program.valueCount

namespace BegunOn

theorem start (p : Program) (name : String) (params : List (String × Ty)) :
    (p.draft name params).BegunOn p where
  kept := Program.extends_addParameters _ _ _
  globals := Program.globals_addParameters _ _ _
  functions := Program.functions_addParameters _ _ _
  introduces_iff v := by
    rw [introduces_draft]
    simp only [Program.draft, Program.mem_addParameters, Program.valueCount_addParameters]

theorem addBlock (label : String) (begun : d.BegunOn p) : (d.addBlock label).2.BegunOn p :=
  ⟨begun.kept, begun.globals, begun.functions,
    fun v => (introduces_addBlock label).trans (begun.introduces_iff v)⟩

theorem append {block : Node} {name : Option String} {opcode : Opcode} {ty : Ty}
    {operands : List Operand} {new : ValueId}
    (run : d.append block name opcode ty operands = .ok (new, later)) (begun : d.BegunOn p) :
    later.BegunOn p := by
  have introduces : ∀ v : Nat, later.Introduces v ↔ d.Introduces v ∨ v = d.program.valueCount :=
    fun v => introduces_append run
  obtain ⟨_, _, _, _, _, rfl⟩ := append_ok run
  refine ⟨(Program.extends_addValue _ _ _).trans begun.kept, begun.globals, begun.functions,
    fun v => ?_⟩
  have before := begun.kept.valueCount_le
  rw [introduces, begun.introduces_iff, Program.valueCount_addValue]
  omega

theorem performAll (p : Program) (name : String) (params : List (String × Ty))
    (calls : List Draft.Call) : ((p.draft name params).performAll calls).2.BegunOn p :=
  performAll_induct (fun _ label => addBlock label) (fun _ _ _ _ _ _ _ _ run => append run) calls
    (start p name params)

end BegunOn

/-- The arena tells by which of its places a value came to a draft. -/
theorem WellFormed.origin_of_introduces (wellFormed : d.WellFormed) (introduces : d.Introduces v) :
    (∃ j, d.params[j]? = some v ∧ d.program.origin? v = some (.parameter d.id j)) ∨
      ∃ b content i, d.blocks[b]? = some content ∧ i ∈ content.instructions ∧ i.value = v ∧
        d.program.origin? v = some (.instruction d.id b) := by
  rcases introduces with member | ⟨b, content, i, known, listed, rfl⟩
  · obtain ⟨j, atPosition⟩ := List.getElem?_of_mem member
    exact Or.inl ⟨j, atPosition, wellFormed.owns.param j v atPosition⟩
  · exact Or.inr ⟨b, content, i, known, listed, rfl, wellFormed.owns.result b content i known listed⟩

end Draft

/-- What an origin says about its value is so in the program. -/
def Origin.TrueOf (p : Program) (v : ValueId) : Origin → Prop
  | .globalVariable _ _ => v ∈ p.globals
  | .parameter k j => ∃ f, p.functions[k]? = some f ∧ f.params[j]? = some v
  | .instruction k b => ∃ f, p.functions[k]? = some f ∧ f.Produces b v

namespace Program

variable {p q : Program} {v : ValueId}

/-- The arena tells the truth about where the value comes from. -/
def OriginTrue (p : Program) (v : ValueId) : Prop :=
  ∀ origin, p.origin? v = some origin → origin.TrueOf p v

/-- The value belongs to no function. -/
def Stray (p : Program) (v : ValueId) : Prop :=
  ∀ (k : FunctionId) f, p.functions[k]? = some f → ¬ f.Introduces v

/-- The values that a step leaves without a function: all that are made in a session which does not
end in a finished function. -/
def leftBy (p : Program) : Step → List ValueId
  | .globalVariable _ _ _ => []
  | .session s =>
    match (s.run p).1.outcome with
    | some (.ok _) => []
    | _ => List.range' p.valueCount ((s.run p).2.valueCount - p.valueCount)

/-- The values that some of the steps leaves without a function. -/
def leftBehind (p : Program) : List Step → List ValueId
  | [] => []
  | step :: rest => p.leftBy step ++ (p.perform step).leftBehind rest

theorem Built.perform (built : p.Built) (step : Step) : (p.perform step).Built := by
  obtain ⟨name, steps, rfl⟩ := built
  exact ⟨name, steps ++ [step], by simp [performAll]⟩

/-- The given values are those whose origin is not true, and they belong to no function. -/
structure Accounts (p : Program) (left : List ValueId) : Prop where
  origin_true : ∀ v, v ∉ left → p.OriginTrue v
  stray : ∀ v ∈ left, v < p.valueCount ∧ p.Stray v

/-- Functions and global variables are never taken away, so what was true stays true. -/
theorem OriginTrue.grow (was : p.OriginTrue v) (inside : v < p.valueCount) (later : q.Extends p)
    (globals : ∀ w ∈ p.globals, w ∈ q.globals)
    (functions : ∀ (k : FunctionId) f, p.functions[k]? = some f → q.functions[k]? = some f) :
    q.OriginTrue v := by
  intro origin recorded
  have holds := was origin (later.origin?_eq inside ▸ recorded)
  cases origin with
  | globalVariable storage initial => exact globals v holds
  | parameter k j =>
    obtain ⟨f, known, member⟩ := holds
    exact ⟨f, functions k f known, member⟩
  | instruction k b =>
    obtain ⟨f, known, produces⟩ := holds
    exact ⟨f, functions k f known, produces⟩

theorem originTrue_of_le (outside : p.valueCount ≤ v) : p.OriginTrue v := fun _ recorded =>
  absurd (lt_valueCount_of_origin? recorded) (Nat.not_lt_of_le outside)

namespace Accounts

variable {left : List ValueId}

theorem addGlobal (accounts : p.Accounts left) (name : String) (storage : Ty)
    (initial : Option Int) : (p.addGlobal name storage initial).2.Accounts left where
  origin_true v kept := by
    have later : (p.addGlobal name storage initial).2.Extends p :=
      extends_addValue (some name) .pointer (.globalVariable storage initial)
    rcases Nat.lt_or_ge v p.valueCount with old | new
    · exact (accounts.origin_true v kept).grow old later
        (fun w member => Array.mem_push_of_mem _ member) (fun _ _ known => known)
    · intro origin recorded
      have cases := (origin?_addValue_iff (p := p) (some name) .pointer
        (.globalVariable storage initial) origin v).mp recorded
      split at cases
      · rename_i last
        subst cases
        exact Array.mem_push.mpr (Or.inr last)
      · exact absurd (lt_valueCount_of_origin? cases) (Nat.not_lt_of_le new)
  stray v member := by
    obtain ⟨inside, none⟩ := accounts.stray v member
    exact ⟨Nat.lt_of_lt_of_le inside (Extends.valueCount_le (extends_addValue _ _ _)), none⟩

/-- A draft that is given up leaves all its values behind, and none of them gets into a function. -/
theorem giveUp {d : Draft} (begun : d.BegunOn p) (wellFormed : p.WellFormed)
    (accounts : p.Accounts left) : d.program.Accounts
      (left ++ List.range' p.valueCount (d.program.valueCount - p.valueCount)) where
  origin_true v kept := by
    rw [List.mem_append, not_or, List.mem_range'_1] at kept
    rcases Nat.lt_or_ge v p.valueCount with old | new
    · exact (accounts.origin_true v kept.1).grow old begun.kept
        (fun w member => begun.globals ▸ member) (fun k f known => begun.functions ▸ known)
    · refine originTrue_of_le (Nat.le_of_not_lt fun inside => kept.2 ⟨new, ?_⟩)
      rwa [Nat.add_sub_of_le begun.kept.valueCount_le]
  stray v member := by
    have grown := begun.kept.valueCount_le
    rw [List.mem_append, List.mem_range'_1, Nat.add_sub_of_le grown] at member
    rcases member with old | ⟨new, inside⟩
    · obtain ⟨inside, none⟩ := accounts.stray v old
      exact ⟨Nat.lt_of_lt_of_le inside grown, fun k f known => none k f (begun.functions ▸ known)⟩
    · refine ⟨inside, fun k f known introduces => ?_⟩
      exact absurd (wellFormed.lt_valueCount_of_introduces (begun.functions ▸ known) introduces)
        (Nat.not_lt_of_le new)

/-- A draft that is finished brings every value that was made for it into its function. -/
theorem finish {d : Draft} {id : FunctionId} (begun : d.BegunOn p) (wellFormed : d.WellFormed)
    (run : d.finish = .ok (id, q)) (accounts : p.Accounts left) : q.Accounts left := by
  obtain ⟨_, flow, known, rfl, rfl⟩ := Draft.finish_ok run
  have labels := Draft.flow_ok known
  have newest : (d.program.functions.push ⟨d.id, d.name, d.params, flow⟩)[d.id]? =
      some ⟨d.id, d.name, d.params, flow⟩ := by
    rw [wellFormed.id_eq, Array.getElem?_push, if_pos rfl]
  have older : ∀ (k : FunctionId) f, p.functions[k]? = some f →
      (d.program.functions.push ⟨d.id, d.name, d.params, flow⟩)[k]? = some f := by
    intro k f was
    rw [← begun.functions] at was
    have inside := (Array.getElem?_eq_some_iff.mp was).1
    rw [Array.getElem?_push, if_neg (Nat.ne_of_lt inside), was]
  refine ⟨fun v kept => ?_, fun v member => ?_⟩
  · rcases Nat.lt_or_ge v p.valueCount with old | new
    · exact (accounts.origin_true v kept).grow old begun.kept
        (fun w member => begun.globals ▸ member) older
    · intro origin recorded
      have inside := lt_valueCount_of_origin? recorded
      rcases wellFormed.origin_of_introduces ((begun.introduces_iff v).mpr ⟨new, inside⟩) with
        ⟨j, member, truth⟩ | ⟨b, content, i, block, listed, value, truth⟩
      · obtain rfl := Option.some.inj (truth.symm.trans recorded)
        exact ⟨_, newest, member⟩
      · obtain rfl := Option.some.inj (truth.symm.trans recorded)
        refine ⟨_, newest, content, i, ?_, listed, value⟩
        rw [Function.block?, Graph.label?, labels, block]
  · obtain ⟨inside, none⟩ := accounts.stray v member
    refine ⟨Nat.lt_of_lt_of_le inside begun.kept.valueCount_le, fun k f atK introduces => ?_⟩
    simp only [Array.getElem?_push] at atK
    split at atK
    · obtain rfl := Option.some.inj atK
      have drafted : d.Introduces v := by
        rcases introduces with member | ⟨b, content, i, block, listed, value⟩
        · exact Or.inl member
        · rw [Function.block?, Graph.label?, labels] at block
          exact Or.inr ⟨b, content, i, block, listed, value⟩
      exact absurd inside (Nat.not_lt_of_le ((begun.introduces_iff v).mp drafted).1)
    · exact none k f (begun.functions ▸ atK) introduces

theorem perform (built : p.Built) (accounts : p.Accounts left) (step : Step) :
    (p.perform step).Accounts (left ++ p.leftBy step) := by
  cases step with
  | globalVariable name storage initial =>
    rw [leftBy, List.append_nil]
    exact accounts.addGlobal name storage initial
  | session s =>
    have begun := Draft.BegunOn.performAll p s.name s.params s.calls
    have wellFormed := Draft.WellFormed.performAll built.wellFormed s.name s.params s.calls
    have unfinished := accounts.giveUp begun built.wellFormed
    simp only [Program.perform, leftBy, Session.run]
    split
    · split
      · rename_i run
        rw [List.append_nil]
        exact accounts.finish begun wellFormed run
      · exact unfinished
    · exact unfinished

theorem performAll (steps : List Step) (built : p.Built) (accounts : p.Accounts left) :
    (p.performAll steps).Accounts (left ++ p.leftBehind steps) := by
  induction steps generalizing p left with
  | nil =>
    rw [leftBehind, List.append_nil]
    exact accounts
  | cons step rest ih =>
    have later := ih (built.perform step) (accounts.perform built step)
    rwa [List.append_assoc] at later

end Accounts

/-- What a history leaves without a function is exactly what has no true origin. -/
theorem accounts_of_history (name : String) (steps : List Step) :
    ((empty name).performAll steps).Accounts ((empty name).leftBehind steps) := by
  have start : (empty name).Accounts [] :=
    ⟨fun v _ => originTrue_of_le (Nat.zero_le v), fun v member => by cases member⟩
  exact start.performAll steps ⟨name, [], rfl⟩

/-- The origin of a value is true unless the value was made in a session that did not end in a
finished function, and then the value belongs to no function at all. -/
theorem origin_true_unless_left_behind (name : String) (steps : List Step) (v : ValueId) :
    (v ∉ (empty name).leftBehind steps → ((empty name).performAll steps).OriginTrue v) ∧
      (v ∈ (empty name).leftBehind steps → ((empty name).performAll steps).Stray v) := by
  have accounts := accounts_of_history name steps
  exact ⟨fun kept => accounts.origin_true v kept, fun left => (accounts.stray v left).2⟩

/-- The parameter of the finished function, and the one of the draft that was given up. -/
theorem origin_true_unless_left_behind_redrafted :
    (3 ∉ (empty "sample").leftBehind redrafting ∧ redrafted.OriginTrue 3) ∧
      1 ∈ (empty "sample").leftBehind redrafting ∧ redrafted.Stray 1 := by
  have kept : 3 ∉ (empty "sample").leftBehind redrafting := by decide
  have left : 1 ∈ (empty "sample").leftBehind redrafting := by decide
  exact ⟨⟨kept, (origin_true_unless_left_behind "sample" redrafting 3).1 kept⟩,
    left, (origin_true_unless_left_behind "sample" redrafting 1).2 left⟩

/-- A function gets the handle that an earlier draft recorded for its values, and has none of them:
neither the parameter at its position nor the instruction in its block. -/
theorem origin_false_redrafted : redrafted.Built ∧ ∃ f, redrafted.functions[0]? = some f ∧
    (redrafted.origin? 1 = some (.parameter 0 0) ∧ f.params[0]? ≠ some 1) ∧
    (redrafted.origin? 2 = some (.instruction 0 0) ∧ ¬ f.Produces 0 2) := by
  refine ⟨redrafted_built, _, rfl, ⟨rfl, by decide⟩, rfl, ?_⟩
  rintro ⟨content, i, block, listed, value⟩
  obtain rfl := Option.some.inj block
  obtain rfl := Array.mem_singleton.mp listed
  exact absurd value (by decide)

end Program

end ReachingValues
