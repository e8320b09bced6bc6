import ReachingValues.Proofs.InPlace
import ReachingValues.Proofs.Program.Growth

/-!
Calls that are refused. A call is refused for the first thing that is wrong with it, and all of that
is looked at before anything is written. So a session goes on after a refusal as if the call had not
been made: what the later calls answer, how the session ends and which program it leaves are the same.
-/

namespace ReachingValues

namespace Draft

/-- An instruction that is to be appended to a block. -/
structure Request where
  block : Node
  name : Option String
  opcode : Opcode
  ty : Ty
  operands : List Operand

/-- The instruction that a call asks for, unless it asks for something else. -/
def Call.request? : Call → Option Request
  | .param _ => none
  | .block _ => none
  | .append b name opcode ty operands => some ⟨b, name, opcode, ty, operands⟩
  | .binary b name opcode ty left right => some ⟨b, some name, opcode, ty, [left, right]⟩
  | .compare b name left right => some ⟨b, some name, .icmp, .truth, [left, right]⟩
  | .jump b target => some ⟨b, none, .br, .void, [.block target]⟩
  | .branch b condition whenTrue whenFalse =>
    some ⟨b, none, .condbr, .void, [.value condition, .block whenTrue, .block whenFalse]⟩
  | .ret b value => some ⟨b, none, .ret, .void, (value.map Operand.value).toList⟩

def grant (d : Draft) (r : Request) : Except Error (ValueId × Draft) :=
  d.append r.block r.name r.opcode r.ty r.operands

/-- The draft has no such value or block as the operand names, and the error says which. -/
inductive Lacks (d : Draft) : Operand → Error → Prop
  | value {v : ValueId} (outside : d.program.valueCount ≤ v) : Lacks d (.value v) (.unknownValue v)
  | block {b : Node} (outside : d.blocks.size ≤ b) : Lacks d (.block b) (.unknownBlock b)

/-- What a request is refused for: its block, and only if nothing is wrong with that, the first of
its operands that the draft lacks. -/
inductive Refuses (d : Draft) (r : Request) : Error → Prop
  | unknown (outside : d.blocks.size ≤ r.block) : Refuses d r (.unknownBlock r.block)
  | closed {target : Block} (known : d.blocks[r.block]? = some target)
      (ended : target.terminator.isSome) :
      Refuses d r (.malformed (.blockClosed target.label r.opcode))
  | operand {target : Block} {earlier later : List Operand} {o : Operand} {error : Error}
      (known : d.blocks[r.block]? = some target) (opened : target.terminator = none)
      (split : r.operands = earlier ++ o :: later)
      (first : ∀ e ∈ earlier, ∀ error, ¬ d.Lacks e error) (lacks : d.Lacks o error) :
      Refuses d r error

variable {d later : Draft} {r : Request} {call : Call} {o : Operand} {error : Error} {answer : Answer}

theorem operandError_eq_some_iff : d.operandError o = some error ↔ d.Lacks o error := by
  constructor
  · intro found
    cases o with
    | value v =>
      simp only [operandError] at found
      split at found
      · cases found
      · rename_i outside
        exact Option.some.inj found ▸ .value (Nat.le_of_not_lt outside)
    | block b =>
      simp only [operandError] at found
      split at found
      · cases found
      · rename_i outside
        exact Option.some.inj found ▸ .block (Nat.le_of_not_lt outside)
    | immediate i => cases found
  · rintro (outside | outside) <;> simp [operandError, Nat.not_lt_of_le outside]

theorem operandError_eq_none_iff : d.operandError o = none ↔ ∀ error, ¬ d.Lacks o error := by
  simp only [← operandError_eq_some_iff, Option.eq_none_iff_forall_ne_some, ne_eq]

theorem Refuses.grant_eq (refuses : d.Refuses r error) : d.grant r = .error error := by
  cases refuses with
  | unknown outside => simp [grant, append, Array.getElem?_eq_none outside]
  | closed known ended => simp [grant, append, known, ended]
  | operand known opened split first lacks =>
    have found : r.operands.findSome? d.operandError = some error :=
      List.findSome?_eq_some_iff.mpr ⟨_, _, _, split, operandError_eq_some_iff.mpr lacks,
        fun e member => operandError_eq_none_iff.mpr (first e member)⟩
    simp [grant, append, known, opened, found]

theorem refuses_of_grant (run : d.grant r = .error error) : d.Refuses r error := by
  unfold grant append at run
  cases known : d.blocks[r.block]? with
  | none =>
    simp only [known] at run
    exact Except.error.inj run ▸ .unknown (Array.getElem?_eq_none_iff.mp known)
  | some target =>
    simp only [known] at run
    split at run
    · rename_i ended
      exact Except.error.inj run ▸ .closed known ended
    · rename_i opened
      split at run
      · rename_i found
        obtain rfl := Except.error.inj run
        obtain ⟨earlier, o, later, split, lacks, first⟩ := List.findSome?_eq_some_iff.mp found
        exact .operand known (Option.not_isSome_iff_eq_none.mp opened) split
          (fun e member => operandError_eq_none_iff.mp (first e member))
          (operandError_eq_some_iff.mp lacks)
      · cases run

theorem grant_eq_error_iff : d.grant r = .error error ↔ d.Refuses r error :=
  ⟨refuses_of_grant, Refuses.grant_eq⟩

/-- A call for an instruction is answered as its request is. -/
theorem perform_of_request (request : call.request? = some r) :
    d.perform call = perform.appended (d.grant r) := by
  cases call with
  | param position => cases request
  | block label => cases request
  | append block name opcode ty operands => exact Option.some.inj request ▸ rfl
  | binary block name opcode ty left right => exact Option.some.inj request ▸ rfl
  | compare block name left right => exact Option.some.inj request ▸ rfl
  | jump block target => exact Option.some.inj request ▸ rfl
  | branch block condition whenTrue whenFalse => exact Option.some.inj request ▸ rfl
  | ret block value => exact Option.some.inj request ▸ rfl

theorem appended_eq_error_iff {result : Except Error (ValueId × Draft)} :
    perform.appended result = .error error ↔ result = .error error := by
  rcases result with other | ⟨v, after⟩
  · simp [perform.appended]
  · simp [perform.appended]

theorem perform_eq_error_iff (request : call.request? = some r) :
    d.perform call = .error error ↔ d.Refuses r error := by
  rw [perform_of_request request, appended_eq_error_iff, grant_eq_error_iff]

/-- A request that is granted takes the next free handle. -/
theorem answer_of_request (request : call.request? = some r)
    (run : d.perform call = .ok (answer, later)) :
    answer = .value d.program.valueCount ∧
      later.program.valueCount = d.program.valueCount + 1 := by
  rw [perform_of_request request] at run
  obtain ⟨v, granted⟩ := appended_ok run
  rw [granted] at run
  obtain ⟨rfl, _⟩ := Prod.mk.inj (Except.ok.inj run)
  obtain ⟨_, _, _, _, rfl, rfl⟩ := append_ok granted
  exact ⟨rfl, Array.size_push _⟩

/-- Work on a draft in place. -/
abbrev Edit := InPlace Draft

namespace Edit

def checkOperands : List Operand → Edit Unit
  | [] => return
  | o :: rest => do
    match (← get).operandError o with
    | some error => throw error
    | none => checkOperands rest

def makeValue (name : Option String) (ty : Ty) (origin : Origin) : Edit ValueId := do
  let d ← get
  let (v, program) := d.program.addValue name ty origin
  set { d with program := program }
  return v

def extend (b : Node) (i : Instruction) : Edit Unit :=
  modify fun d => { d with
    blocks := d.blocks.modify b fun content => ⟨content.label, content.instructions.push i⟩ }

/-- Appends the instruction of a request step by step. -/
def grant (r : Request) : Edit ValueId := do
  let d ← get
  match d.blocks[r.block]? with
  | none => throw (.unknownBlock r.block)
  | some target =>
    if target.terminator.isSome then throw (.malformed (.blockClosed target.label r.opcode))
    else
      checkOperands r.operands
      let v ← makeValue r.name r.ty (.instruction d.id r.block)
      extend r.block ⟨v, r.opcode, r.operands⟩
      return v

variable (d : Draft)

theorem outcome_checkOperands (operands : List Operand) :
    (checkOperands operands).outcome d =
      ((operands.findSome? d.operandError).elim (.ok ()) .error, d) := by
  induction operands with
  | nil => rfl
  | cons o rest ih =>
    rw [checkOperands, InPlace.outcome_get_bind, List.findSome?_cons]
    cases d.operandError o with
    | none => exact ih
    | some error => rfl

theorem outcome_makeValue (name : Option String) (ty : Ty) (origin : Origin) :
    (makeValue name ty origin).outcome d = (.ok d.program.valueCount,
      { d with program := (d.program.addValue name ty origin).2 }) := rfl

theorem outcome_extend {b : Node} {content : Block} (known : d.blocks[b]? = some content)
    (i : Instruction) :
    (extend b i).outcome d = (.ok (), { d with
      blocks := d.blocks.setIfInBounds b ⟨content.label, content.instructions.push i⟩ }) := by
  have extended : d.blocks.modify b (fun old => ⟨old.label, old.instructions.push i⟩) =
      d.blocks.setIfInBounds b ⟨content.label, content.instructions.push i⟩ := by
    refine Array.ext_getElem? fun j => ?_
    rw [Array.getElem?_modify, Array.getElem?_setIfInBounds]
    split
    · rename_i same
      rw [← same, known, if_pos (Array.getElem?_eq_some_iff.mp known).1, Option.map_some]
    · rfl
  rw [← extended]
  rfl

/-- Appending in place is appending, and where it fails it has written nothing. -/
theorem outcome_grant (r : Request) :
    (grant r).outcome d =
      match d.grant r with
      | .ok (v, later) => (.ok v, later)
      | .error error => (.error error, d) := by
  rw [grant, InPlace.outcome_get_bind, Draft.grant, append]
  cases known : d.blocks[r.block]? with
  | none => rfl
  | some target =>
    simp only
    split
    · rfl
    · have checked := outcome_checkOperands d r.operands
      cases found : r.operands.findSome? d.operandError with
      | some error =>
        rw [found] at checked
        exact InPlace.outcome_bind_error checked _
      | none =>
        have wrote := outcome_extend
          { d with program := (d.program.addValue r.name r.ty (.instruction d.id r.block)).2 } known
          ⟨d.program.valueCount, r.opcode, r.operands⟩
        rw [found] at checked
        rw [InPlace.outcome_bind checked, InPlace.outcome_bind (outcome_makeValue d r.name r.ty _),
          InPlace.outcome_bind wrote]
        rfl

end Edit

end Draft

namespace Session

/-- The session without the calls that were answered with an error. -/
def withoutRefused (s : Session) (answers : List (Except Error Draft.Answer)) : Session :=
  { s with calls := accepted s.calls answers }

theorem answers_run (s : Session) (p : Program) :
    (s.run p).1.answers = ((p.draft s.name s.params).performAll s.calls).1 := by
  simp only [run]
  split
  · split <;> rfl
  · rfl

/-- Leaving out the refused calls of a session changes nothing but that they are not answered. -/
theorem run_withoutRefused (s : Session) (p : Program) :
    (s.withoutRefused (s.run p).1.answers).run p =
      ({ (s.run p).1 with answers := (s.run p).1.answers.filter (·.isOk) }, (s.run p).2) := by
  rw [answers_run]
  simp only [run, withoutRefused, Draft.performAll, attemptAll_accepted]
  split
  · split <;> rfl
  · rfl

/-- A call for an instruction fails just when its request is refused, and otherwise answers with the
next free handle; made in place, it has written nothing when it fails; and a session in which calls
fail is the session without them. -/
theorem refusals_leave_no_trace :
    (∀ (d : Draft) (call : Draft.Call) (r : Draft.Request), call.request? = some r →
      (∀ error, d.perform call = .error error ↔ d.Refuses r error) ∧
      ∀ answer later, d.perform call = .ok (answer, later) →
        answer = .value d.program.valueCount ∧
          later.program.valueCount = d.program.valueCount + 1) ∧
    (∀ (d : Draft) (r : Draft.Request), (Draft.Edit.grant r).outcome d =
      match d.grant r with
      | .ok (v, later) => (.ok v, later)
      | .error error => (.error error, d)) ∧
    ∀ (s : Session) (p : Program), (s.run p).1.answers.length = s.calls.length ∧
      (s.withoutRefused (s.run p).1.answers).run p =
        ({ (s.run p).1 with answers := (s.run p).1.answers.filter (·.isOk) }, (s.run p).2) := by
  refine ⟨fun d call r request => ⟨fun error => Draft.perform_eq_error_iff request,
    fun answer later => Draft.answer_of_request request⟩, fun d r => Draft.Edit.outcome_grant d r,
    fun s p => ⟨?_, run_withoutRefused s p⟩⟩
  rw [answers_run, Draft.performAll, length_attemptAll]

/-- A session that tries to return before its block is there, with a value that is not there, and a
second time. -/
def insistent : Session :=
  ⟨"f", [], [.ret 0 none, .block "entry", .ret 0 (some 0), .ret 0 none, .ret 0 none], true⟩

theorem refusals_leave_no_trace_insistent :
    ((Program.empty "sample").draft "f" []).perform (.ret 0 none) = .error (.unknownBlock 0) ∧
    (insistent.run (.empty "sample")).1.answers =
      [.error (.unknownBlock 0), .ok (.block 0), .error (.unknownValue 0), .ok (.value 0),
        .error (.malformed (.blockClosed "entry" .ret))] ∧
    (⟨"f", [], [.block "entry", .ret 0 none], true⟩ : Session).run (.empty "sample") =
      (⟨0, [.ok (.block 0), .ok (.value 0)], some (.ok 0)⟩,
        (insistent.run (.empty "sample")).2) := by
  obtain ⟨requests, _, sessions⟩ := refusals_leave_no_trace
  refine ⟨((requests _ _ _ rfl).1 _).mpr (.unknown (by decide)), rfl, ?_⟩
  exact (sessions insistent (.empty "sample")).2

end Session

end ReachingValues
