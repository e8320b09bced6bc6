import ReachingValues.Proofs.Program.Provenance

/-!
How programs grow. The arena, the list of global variables and the list of functions are only ever
continued at their ends, so whatever a handle names it names forever; this holds of finished sessions
and of all others.
-/

namespace ReachingValues

/-- What an array holds is still there after it was continued. -/
theorem getElem?_of_isPrefix {α : Type} {table longer : Array α} {i : Nat}
    (continued : table.toList <+: longer.toList) (inside : i < table.size) :
    longer[i]? = table[i]? := by
  obtain ⟨rest, split⟩ := continued
  rw [← Array.getElem?_toList, ← Array.getElem?_toList, ← split, List.getElem?_append_left inside]

theorem toList_isPrefix_push {α : Type} (table : Array α) (a : α) :
    table.toList <+: (table.push a).toList :=
  ⟨[a], Array.toList_push.symm⟩

/-- The function in which the value was made, by what the arena records. -/
def Origin.function? : Origin → Option FunctionId
  | .globalVariable _ _ => none
  | .parameter k _ => some k
  | .instruction k _ => some k

namespace Program

variable {p q : Program} {v : ValueId} {k : FunctionId} {f : Function}

/-- The first program has everything that the second one has, in the same places. -/
structure Continues (q p : Program) : Prop where
  values : p.values.toList <+: q.values.toList
  globals : p.globals.toList <+: q.globals.toList
  functions : p.functions.toList <+: q.functions.toList

/-- The draft has changed nothing of the program, not counting what it has added. -/
def WorkedOn (p : Program) (d : Draft) : Prop := d.program.Continues p

namespace Continues

theorem refl (p : Program) : p.Continues p :=
  ⟨List.prefix_rfl, List.prefix_rfl, List.prefix_rfl⟩

theorem trans {o : Program} (upper : q.Continues p) (lower : p.Continues o) : q.Continues o :=
  ⟨lower.values.trans upper.values, lower.globals.trans upper.globals,
    lower.functions.trans upper.functions⟩

theorem addValue (p : Program) (name : Option String) (ty : Ty) (origin : Origin) :
    (p.addValue name ty origin).2.Continues p :=
  ⟨toList_isPrefix_push _ _, List.prefix_rfl, List.prefix_rfl⟩

theorem addGlobal (p : Program) (name : String) (storage : Ty) (initial : Option Int) :
    (p.addGlobal name storage initial).2.Continues p :=
  ⟨toList_isPrefix_push _ _, toList_isPrefix_push _ _, List.prefix_rfl⟩

theorem addParameters (p : Program) (id : FunctionId) (position : Nat)
    (params : List (String × Ty)) : (p.addParameters id position params).2.Continues p := by
  induction params generalizing p position with
  | nil => exact refl p
  | cons first rest ih =>
    rw [addParameters_cons]
    exact (ih _ (position + 1)).trans (addValue p _ _ _)

theorem draft (p : Program) (name : String) (params : List (String × Ty))
    (calls : List Draft.Call) : p.WorkedOn ((p.draft name params).performAll calls).2 := by
  refine Draft.performAll_induct (fun _ _ before => before)
    (fun d later block name opcode ty operands v run before => ?_) calls (addParameters p _ _ _)
  obtain ⟨_, _, _, _, _, rfl⟩ := Draft.append_ok run
  exact (addValue d.program _ _ _).trans before

theorem finish {d : Draft} {id : FunctionId} (run : d.finish = .ok (id, q)) :
    q.Continues d.program := by
  obtain ⟨_, _, _, _, rfl⟩ := Draft.finish_ok run
  exact ⟨List.prefix_rfl, List.prefix_rfl, toList_isPrefix_push _ _⟩

theorem perform (p : Program) (step : Step) : (p.perform step).Continues p := by
  cases step with
  | globalVariable name storage initial => exact addGlobal p name storage initial
  | session s =>
    have drafted := draft p s.name s.params s.calls
    simp only [Program.perform, Session.run]
    split
    · split
      · rename_i run
        exact (finish run).trans drafted
      · exact drafted
    · exact drafted

theorem performAll (p : Program) (steps : List Step) : (p.performAll steps).Continues p := by
  induction steps generalizing p with
  | nil => exact refl p
  | cons step rest ih => exact (ih (p.perform step)).trans (perform p step)

variable (continues : q.Continues p)

include continues

theorem value?_eq (inside : v < p.valueCount) : q.value? v = p.value? v :=
  getElem?_of_isPrefix continues.values inside

theorem function_eq (known : p.functions[k]? = some f) : q.functions[k]? = some f :=
  (getElem?_of_isPrefix continues.functions (Array.getElem?_eq_some_iff.mp known).1).trans known

theorem mem_globals (member : v ∈ p.globals) : v ∈ q.globals :=
  Array.mem_toList_iff.mp (continues.globals.subset (Array.mem_toList_iff.mpr member))

/-- The values that were there keep their origins. -/
theorem kept : q.Extends p := by
  intro v origin known
  rw [origin?, continues.value?_eq (lt_valueCount_of_origin? known)]
  exact known

end Continues

theorem performAll_append (p : Program) (history later : List Step) :
    p.performAll (history ++ later) = (p.performAll history).performAll later :=
  List.foldl_append ..

theorem Built.performAll (built : p.Built) (steps : List Step) : (p.performAll steps).Built := by
  obtain ⟨name, history, rfl⟩ := built
  exact ⟨name, history ++ steps, (performAll_append _ history steps).symm⟩

theorem WellFormed.function?_of_introduces (wellFormed : p.WellFormed)
    (known : p.functions[k]? = some f) (introduces : f.Introduces v) :
    ∃ origin, p.origin? v = some origin ∧ origin.function? = some k := by
  have owns := (wellFormed.functions k f known).2.2
  rcases introduces with member | ⟨b, content, i, block, listed, rfl⟩
  · obtain ⟨position, atPosition⟩ := List.getElem?_of_mem member
    exact ⟨_, owns.param position v atPosition, rfl⟩
  · exact ⟨_, owns.result b content i block listed, rfl⟩

theorem WellFormed.function?_of_global (wellFormed : p.WellFormed) (member : v ∈ p.globals) :
    ∃ origin, p.origin? v = some origin ∧ origin.function? = none := by
  obtain ⟨_, _, known⟩ := wellFormed.globals v member
  exact ⟨_, known, rfl⟩

/-- Two functions have no value in common. -/
theorem WellFormed.introduces_unique {j : FunctionId} {g : Function} (wellFormed : p.WellFormed)
    (atJ : p.functions[j]? = some g) (ofG : g.Introduces v) (atK : p.functions[k]? = some f)
    (ofF : f.Introduces v) : j = k := by
  obtain ⟨origin, recorded, made⟩ := wellFormed.function?_of_introduces atJ ofG
  obtain ⟨_, same, made'⟩ := wellFormed.function?_of_introduces atK ofF
  obtain rfl := Option.some.inj (recorded.symm.trans same)
  exact Option.some.inj (made.symm.trans made')

theorem WellFormed.not_introduces_of_global (wellFormed : p.WellFormed)
    (known : p.functions[k]? = some f) (member : v ∈ p.globals) : ¬ f.Introduces v := by
  intro introduces
  obtain ⟨origin, recorded, made⟩ := wellFormed.function?_of_introduces known introduces
  obtain ⟨_, same, none⟩ := wellFormed.function?_of_global member
  obtain rfl := Option.some.inj (recorded.symm.trans same)
  exact absurd (made.symm.trans none) (by simp)

/-- A value that is left behind was made for some function, if only for one that never came to be. -/
theorem function?_of_leftBy {step : Step} (built : p.Built) (left : v ∈ p.leftBy step) :
    ∃ origin k, (p.perform step).origin? v = some origin ∧ origin.function? = some k := by
  cases step with
  | globalVariable name storage initial => cases left
  | session s =>
    have begun := Draft.BegunOn.performAll p s.name s.params s.calls
    have wellFormed := Draft.WellFormed.performAll built.wellFormed s.name s.params s.calls
    have made : ∀ d : Draft, d.BegunOn p → d.WellFormed →
        v ∈ List.range' p.valueCount (d.program.valueCount - p.valueCount) →
        ∃ origin k, d.program.origin? v = some origin ∧ origin.function? = some k := by
      intro d begun wellFormed member
      rw [List.mem_range'_1, Nat.add_sub_of_le begun.kept.valueCount_le] at member
      rcases wellFormed.origin_of_introduces ((begun.introduces_iff v).mpr member) with
        ⟨_, _, known⟩ | ⟨_, _, _, _, _, _, known⟩
      · exact ⟨_, _, known, rfl⟩
      · exact ⟨_, _, known, rfl⟩
    simp only [Program.perform, leftBy, Session.run] at left ⊢
    cases ends : s.finished with
    | false =>
      simp only [ends, Bool.false_eq_true, if_false] at left ⊢
      exact made _ begun wellFormed left
    | true =>
      simp only [ends, if_true] at left ⊢
      cases run : ((p.draft s.name s.params).performAll s.calls).2.finish with
      | ok result =>
        simp only [run, List.not_mem_nil] at left
      | error error =>
        simp only [run] at left ⊢
        exact made _ begun wellFormed left

theorem function?_of_leftBehind {steps : List Step} (built : p.Built)
    (left : v ∈ p.leftBehind steps) :
    ∃ origin k, (p.performAll steps).origin? v = some origin ∧ origin.function? = some k := by
  induction steps generalizing p with
  | nil => cases left
  | cons step rest ih =>
    rcases List.mem_append.mp left with now | later
    · obtain ⟨origin, k, recorded, maker⟩ := function?_of_leftBy built now
      exact ⟨origin, k, (Continues.performAll (p.perform step) rest).kept v origin recorded, maker⟩
    · exact ih (built.perform step) later

end Program

end ReachingValues
