import ReachingValues.Graph.Lemmas
import ReachingValues.Program.History

/-!
What every call does when it succeeds, and the two inductions by which a property of drafts or of
programs follows from what single operations keep.
-/

namespace ReachingValues

namespace Draft

variable {d later : Draft} {block : Node} {name : Option String} {opcode : Opcode} {ty : Ty}
  {operands : List Operand} {v : ValueId} {answer : Answer} {call : Call}

theorem append_ok (run : d.append block name opcode ty operands = .ok (v, later)) :
    ∃ target, d.blocks[block]? = some target ∧ target.terminator = none ∧
      operands.findSome? d.operandError = none ∧ v = d.program.valueCount ∧
      later = { d with
        program := (d.program.addValue name ty (.instruction d.id block)).2
        blocks := d.blocks.setIfInBounds block
          ⟨target.label, target.instructions.push ⟨v, opcode, operands⟩⟩ } := by
  unfold append at run
  cases known : d.blocks[block]? with
  | none => simp [known] at run
  | some target =>
    simp only [known] at run
    split at run
    · cases run
    · rename_i opened
      split at run
      · cases run
      · rename_i fits
        obtain ⟨rfl, rfl⟩ := Prod.mk.inj (Except.ok.inj run)
        exact ⟨target, rfl, by simpa using opened, fits, rfl, rfl⟩

theorem appended_ok {result : Except Error (ValueId × Draft)}
    (run : perform.appended result = .ok (answer, later)) : ∃ v, result = .ok (v, later) := by
  rcases result with error | ⟨v, after⟩
  · cases run
  · obtain ⟨_, rfl⟩ := Prod.mk.inj (Except.ok.inj run)
    exact ⟨v, rfl⟩

section Induction

variable {holds : Draft → Prop} (addBlock : ∀ d label, holds d → holds (d.addBlock label).2)
  (append : ∀ d later block name opcode ty operands v,
    d.append block name opcode ty operands = .ok (v, later) → holds d → holds later)

include addBlock append

/-- A call that succeeds adds a block, appends an instruction or changes nothing. -/
theorem perform_induct (run : d.perform call = .ok (answer, later)) (start : holds d) :
    holds later := by
  have appended : ∀ block name opcode ty operands,
      perform.appended (d.append block name opcode ty operands) = .ok (answer, later) →
      holds later := by
    intro block name opcode ty operands run
    obtain ⟨v, run⟩ := appended_ok run
    exact append d later block name opcode ty operands v run start
  cases call with
  | param position =>
    cases known : d.param position with
    | error error => simp [perform, known] at run
    | ok v =>
      simp only [perform, known, ok_bind, pure_eq_ok] at run
      obtain ⟨_, rfl⟩ := Prod.mk.inj (Except.ok.inj run)
      exact start
  | block label =>
    obtain ⟨_, rfl⟩ := Prod.mk.inj (Except.ok.inj run)
    exact addBlock d label start
  | append block name opcode ty operands => exact appended _ _ _ _ _ run
  | binary block name opcode ty left right => exact appended _ _ _ _ _ run
  | compare block name left right => exact appended _ _ _ _ _ run
  | jump block target => exact appended _ _ _ _ _ run
  | branch block condition whenTrue whenFalse => exact appended _ _ _ _ _ run
  | ret block value => exact appended _ _ _ _ _ run

/-- What blocks and instructions keep holds after any calls, be some of them refused. -/
theorem performAll_induct (calls : List Call) (start : holds d) : holds (d.performAll calls).2 :=
  attemptAll_induct perform (fun _ => holds) start
    (fun _ _ _ _ _ run now => perform_induct addBlock append run now) calls

end Induction

theorem flow_ok {g : Graph Block} (run : d.flow = .ok g) : g.labels = d.blocks := by
  unfold flow at run
  cases known : d.edges with
  | error error => simp [known] at run
  | ok edges =>
    rw [known, ok_bind] at run
    have kept : ∀ (start : Graph Block), edges.foldlM
        (fun g edge => (g.addEdge edge.1 edge.2).mapError Error.edge) start = .ok g →
        g.labels = start.labels := by
      clear known run
      induction edges with
      | nil =>
        intro start run
        exact congrArg Graph.labels (Except.ok.inj run).symm
      | cons edge rest ih =>
        intro start run
        rw [List.foldlM_cons] at run
        cases added : start.addEdge edge.1 edge.2 with
        | error error => simp [added] at run
        | ok next =>
          simp only [added, mapError_ok, ok_bind] at run
          rw [ih next run, Graph.labels_addEdge added]
    exact kept _ run

theorem finish_ok {id : FunctionId} {p : Program} (run : d.finish = .ok (id, p)) :
    0 < d.blocks.size ∧ ∃ flow, d.flow = .ok flow ∧ id = d.id ∧
      p = { d.program with
        functions := d.program.functions.push ⟨d.id, d.name, d.params, flow⟩ } := by
  unfold finish at run
  split at run
  · cases run
  · rename_i nonempty
    cases known : d.flow with
    | error error => simp [known] at run
    | ok flow =>
      simp only [known, pure_eq_ok, ok_bind] at run
      obtain ⟨rfl, rfl⟩ := Prod.mk.inj (Except.ok.inj run)
      exact ⟨by simpa [Array.isEmpty_iff_size_eq_zero, Nat.pos_iff_ne_zero] using nonempty,
        flow, rfl, rfl, rfl⟩

end Draft

/-- What holds of drafts that were begun on a program where something holds carries over to every
program that can be built. -/
theorem Program.Built.induct {holds : Program → Prop} {p : Program} (built : p.Built)
    (empty : ∀ name, holds (.empty name))
    (global : ∀ p name storage initial, holds p → holds (p.addGlobal name storage initial).2)
    (dropped : ∀ p name params calls, holds p →
      holds ((p.draft name params).performAll calls).2.program)
    (finished : ∀ p name params calls id q, holds p →
      ((p.draft name params).performAll calls).2.finish = .ok (id, q) → holds q) : holds p := by
  obtain ⟨name, steps, rfl⟩ := built
  suffices general : ∀ p, holds p → holds (p.performAll steps) from general _ (empty name)
  induction steps with
  | nil => exact fun p start => start
  | cons step rest ih =>
    intro p start
    refine ih _ ?_
    cases step with
    | globalVariable name storage initial => exact global p name storage initial start
    | session s =>
      simp only [Program.perform, Session.run]
      split
      · split
        · rename_i run
          exact finished p s.name s.params s.calls _ _ start run
        · exact dropped p s.name s.params s.calls start
      · exact dropped p s.name s.params s.calls start

end ReachingValues
