import ReachingValues.Program.Listing
import ReachingValues.Proofs.Program.Continuation

/-!
What handles are printed as while a program grows. The text of an instruction is not kept with its
value: it is looked up through the function and the block that the arena records, and in there a
reference may name any value and any block. For a value of a finished function all of this is in
place and stays so. A value that was left behind records a handle that may go to another function
later, but its instruction is not found there, whatever blocks that function has.
-/

namespace ReachingValues

namespace Program

variable {p q : Program} {v : ValueId} {k : FunctionId} {f : Function} {b : Node}
  {i : Instruction}

/-- An instruction that is found is one of the block, and it defines the value. -/
theorem instruction?_eq_some (found : p.instruction? k b v = some i) :
    ∃ f content, p.functions[k]? = some f ∧ f.block? b = some content ∧
      i ∈ content.instructions ∧ i.value = v := by
  obtain ⟨content, block, atV⟩ := Option.bind_eq_some_iff.mp found
  obtain ⟨f, known, atB⟩ := Option.bind_eq_some_iff.mp block
  have value := Array.find?_some atV
  exact ⟨f, content, known, atB, Array.mem_of_find?_eq_some atV, by simpa using value⟩

theorem Stray.instruction?_eq_none (stray : p.Stray v) : p.instruction? k b v = none := by
  cases found : p.instruction? k b v with
  | none => rfl
  | some i =>
    obtain ⟨f, content, known, block, listed, value⟩ := instruction?_eq_some found
    exact absurd (Or.inr ⟨b, content, i, block, listed, value⟩) (stray k f known)

theorem valueForm_of_parameter {value : Value} {position : Nat} (known : p.value? v = some value)
    (origin : value.origin = .parameter k position) :
    p.valueForm v = .parameter value.ty value.reference := by
  simp [valueForm, known, origin]

theorem Stray.valueForm_eq {value : Value} (stray : p.Stray v) (known : p.value? v = some value)
    (id : value.id = v) (origin : value.origin = .instruction k b) :
    p.valueForm v = .stray value.reference := by
  simp [valueForm, known, origin, id, stray.instruction?_eq_none]

/-- A value that was made for some function and is in none is printed by its reference, a parameter
after its type. -/
theorem Stray.valueText_eq {value : Value} {maker : FunctionId} (stray : p.Stray v)
    (known : p.value? v = some value) (id : value.id = v)
    (made : value.origin.function? = some maker) :
    (value.definingBlock.isSome ∧ p.valueText v = value.reference) ∨
      (value.isParameter ∧ p.valueText v = value.ty.text ++ " " ++ value.reference) := by
  cases origin : value.origin with
  | globalVariable storage initial => simp [origin, Origin.function?] at made
  | parameter k j =>
    exact Or.inr ⟨by simp [Value.isParameter, origin],
      congrArg ValueForm.text (valueForm_of_parameter known origin)⟩
  | instruction k b =>
    exact Or.inl ⟨by simp [Value.definingBlock, origin],
      congrArg ValueForm.text (stray.valueForm_eq known id origin)⟩

theorem leftBehind_append (p : Program) (history later : List Step) :
    p.leftBehind (history ++ later) =
      p.leftBehind history ++ (p.performAll history).leftBehind later := by
  induction history generalizing p with
  | nil => rfl
  | cons step rest ih =>
    rw [List.cons_append, leftBehind, leftBehind, ih, List.append_assoc]
    rfl

namespace Continues

variable (continues : q.Continues p)

include continues

theorem reference_eq (inside : v < p.valueCount) : q.reference v = p.reference v := by
  rw [reference, reference, continues.value?_eq inside]

theorem blockReference_eq (known : p.functions[k]? = some f) (b : Node) :
    q.blockReference k b = p.blockReference k b := by
  rw [blockReference, blockReference, known, continues.function_eq known]

theorem instruction?_eq (known : p.functions[k]? = some f) (b : Node) (v : ValueId) :
    q.instruction? k b v = p.instruction? k b v := by
  rw [instruction?, instruction?, known, continues.function_eq known]

/-- The operands of an instruction that is found name values and blocks that were there. -/
theorem map_operandForm_eq (coherent : p.Coherent) (found : p.instruction? k b v = some i) :
    i.operands.map (q.operandForm k) = i.operands.map (p.operandForm k) := by
  obtain ⟨f, content, known, block, listed, _⟩ := instruction?_eq_some found
  have filled := coherent.filled k f b content known block
  refine List.map_congr_left fun operand used => ?_
  cases operand with
  | value v =>
    have inside := filled.value_operand i listed v used
    rw [operandForm, operandForm, continues.reference_eq inside]
  | block b => rw [operandForm, operandForm, continues.blockReference_eq known]
  | immediate n => rfl

/-- A value keeps its description if the arena tells the truth about it, or if it is in no function
even after the growth. -/
theorem valueForm_eq (coherent : p.Coherent) (inside : v < p.valueCount)
    (placed : p.OriginTrue v ∨ p.Stray v ∧ q.Stray v) : q.valueForm v = p.valueForm v := by
  obtain ⟨value, known⟩ : ∃ value, p.value? v = some value :=
    ⟨_, Array.getElem?_eq_getElem inside⟩
  have known' := (continues.value?_eq inside).trans known
  have id := coherent.value_id v value known
  cases origin : value.origin with
  | globalVariable storage initial => simp [valueForm, known, known', origin]
  | parameter k j => rw [valueForm_of_parameter known origin, valueForm_of_parameter known' origin]
  | instruction k b =>
    rcases placed with truth | ⟨stray, stray'⟩
    · obtain ⟨f, function, _⟩ := truth (.instruction k b) (by simp [origin?, known, origin])
      have same := continues.instruction?_eq function b v
      cases found : p.instruction? k b v with
      | none => simp [valueForm, known, known', origin, id, same, found]
      | some i =>
        have operands := continues.map_operandForm_eq coherent found
        simp [valueForm, known, known', origin, id, same, found, operands]
    · rw [stray.valueForm_eq known id origin, stray'.valueForm_eq known' id origin]

end Continues

/-- Whatever handles a program has given out, they name the same and are printed the same however
the program grows. Instructions of drafts that were given up are printed as bare references,
parameters of such drafts as parameters, also when another function has got the handle. -/
theorem texts_kept_by_growth {name : String} {history later : List Step}
    (before : (empty name).performAll history = p) (after : p.performAll later = q) :
    (∀ v < p.valueCount, q.value? v = p.value? v ∧ q.reference v = p.reference v ∧
      q.valueText v = p.valueText v) ∧
    (∀ k f, p.function k = .ok f → q.function k = .ok f ∧
      ∀ b, q.blockReference k b = p.blockReference k b) ∧
    ∀ v ∈ (empty name).leftBehind history, ∃ value, p.value? v = some value ∧
      ((value.definingBlock.isSome ∧ p.valueText v = value.reference ∧
          q.valueText v = value.reference) ∨
        (value.isParameter ∧ p.valueText v = value.ty.text ++ " " ++ value.reference ∧
          q.valueText v = value.ty.text ++ " " ++ value.reference)) := by
  have whole : (empty name).performAll (history ++ later) = q := by
    rw [performAll_append, before, after]
  have start : (empty name).Built := ⟨name, [], rfl⟩
  have built : p.Built := ⟨name, history, before.symm⟩
  have continues : q.Continues p := after ▸ Continues.performAll p later
  have accounts := accounts_of_history name history
  have accounts' := accounts_of_history name (history ++ later)
  rw [before] at accounts
  rw [whole, leftBehind_append] at accounts'
  have strays : ∀ v ∈ (empty name).leftBehind history, p.Stray v ∧ q.Stray v := fun v left =>
    ⟨(accounts.stray v left).2, (accounts'.stray v (List.mem_append_left _ left)).2⟩
  have texts : ∀ v < p.valueCount, q.valueText v = p.valueText v := fun v inside => by
    refine congrArg ValueForm.text (continues.valueForm_eq built.coherent inside ?_)
    by_cases left : v ∈ (empty name).leftBehind history
    · exact Or.inr (strays v left)
    · exact Or.inl (accounts.origin_true v left)
  refine ⟨fun v inside => ⟨continues.value?_eq inside, continues.reference_eq inside,
    texts v inside⟩, fun k f known => ?_, fun v left => ?_⟩
  · have known := function_eq_ok.mp known
    exact ⟨function_eq_ok.mpr (continues.function_eq known), continues.blockReference_eq known⟩
  · obtain ⟨origin, maker, recorded, made⟩ := function?_of_leftBehind start left
    rw [before] at recorded
    obtain ⟨value, known, rfl⟩ := Option.map_eq_some_iff.mp recorded
    have text := (strays v left).1.valueText_eq known (built.coherent.value_id v value known) made
    have same := texts v (accounts.stray v left).1
    exact ⟨value, known, by simpa only [same, and_self] using text⟩

/-- A draft with a parameter and an instruction is given up. -/
def abandoning : List Step :=
  redrafting ++ [.session ⟨"g", [("m", .int 32)],
    [.block "entry", .binary 0 "y" .add (.int 32) (.value 5) (.immediate 1)], false⟩]

/-- Another function gets the handle of that draft, and a block with the handle of its block. -/
def reusing : List Step := [.session ⟨"h", [], [.block "entry", .ret 0 none], true⟩]

theorem texts_kept_by_growth_reusing :
    ∃ p q f, (empty "sample").performAll abandoning = p ∧ p.performAll reusing = q ∧
      p.functions.size = 1 ∧ q.functions.size = 2 ∧
      4 < p.valueCount ∧ q.valueText 4 = "ret %n" ∧
      p.function 0 = .ok f ∧ q.function 0 = .ok f ∧ q.blockReference 0 0 = "%entry" ∧
      6 ∈ (empty "sample").leftBehind abandoning ∧ p.valueText 6 = "%y" ∧ q.valueText 6 = "%y" ∧
      5 ∈ (empty "sample").leftBehind abandoning ∧ q.valueText 5 = "i32 %m" := by
  obtain ⟨texts, functions, left⟩ := texts_kept_by_growth
    (rfl : (empty "sample").performAll abandoning = _) (rfl : Program.performAll _ reusing = _)
  obtain ⟨_, _, finished⟩ := texts 4 (by decide)
  obtain ⟨_, _, parameter⟩ := texts 5 (by decide)
  obtain ⟨kept, blocks⟩ := functions 0 _ rfl
  obtain ⟨value, known, text⟩ := left 6 (by decide)
  obtain rfl : value = ⟨6, some "y", .int 32, .instruction 1 0⟩ := (Option.some.inj known).symm
  rcases text with ⟨_, before, after⟩ | ⟨isParameter, _⟩
  · exact ⟨_, _, _, rfl, rfl, by decide, by decide, by decide, finished.trans (by decide), rfl, kept,
      (blocks 0).trans (by decide), by decide, before.trans (by decide), after.trans (by decide),
      by decide, parameter.trans (by decide)⟩
  · cases isParameter

/-- The parameter of the draft that is given up is not printed as its bare reference. -/
theorem redrafted_parameter_text : 1 ∈ (empty "sample").leftBehind redrafting ∧
    redrafted.reference 1 = "%n" ∧ redrafted.valueText 1 = "i32 %n" ∧
    redrafted.valueText 1 ≠ redrafted.reference 1 := by
  decide

end Program

end ReachingValues
