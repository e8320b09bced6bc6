import ReachingValues.Attempts
import ReachingValues.Program.Draft

/-!
The ways in which programs come about. A program grows by global variables and by sessions, in each
of which one function is drafted by a sequence of calls and then finished or given up. A call that
fails leaves the draft as it was, and a session that does not end in a finished function leaves
nothing behind but values.
-/

namespace ReachingValues

namespace Draft

/-- A call that can be made while a function is drafted. Those that end a block, and the two common
forms of instructions, are spelled out by `perform`. -/
inductive Call where
  | param (position : Nat)
  | block (label : String)
  | append (block : Node) (name : Option String) (opcode : Opcode) (ty : Ty)
    (operands : List Operand)
  | binary (block : Node) (name : String) (opcode : Opcode) (ty : Ty) (left right : Operand)
  | compare (block : Node) (name : String) (left right : Operand)
  | jump (block target : Node)
  | branch (block : Node) (condition : ValueId) (whenTrue whenFalse : Node)
  | ret (block : Node) (value : Option ValueId)

/-- The handle that a call answers with. -/
inductive Answer where
  | value (v : ValueId)
  | block (b : Node)
  deriving DecidableEq

/-- Makes a call. -/
def perform (d : Draft) : Call → Except Error (Answer × Draft)
  | .param position => do return (.value (← d.param position), d)
  | .block label =>
    let (b, d) := d.addBlock label
    .ok (.block b, d)
  | .append block name opcode ty operands => appended (d.append block name opcode ty operands)
  | .binary block name opcode ty left right =>
    appended (d.append block (some name) opcode ty [left, right])
  | .compare block name left right =>
    appended (d.append block (some name) .icmp .truth [left, right])
  | .jump block target => appended (d.append block none .br .void [.block target])
  | .branch block condition whenTrue whenFalse =>
    appended (d.append block none .condbr .void
      [.value condition, .block whenTrue, .block whenFalse])
  | .ret block value =>
    appended (d.append block none .ret .void (value.map Operand.value).toList)
where
  /-- The answer of a call that appends an instruction. -/
  appended : Except Error (ValueId × Draft) → Except Error (Answer × Draft)
    | .ok (v, d) => .ok (.value v, d)
    | .error error => .error error

/-- Makes calls one after another, going on after failures, and returns all answers. -/
def performAll (d : Draft) (calls : List Call) : List (Except Error Answer) × Draft :=
  attemptAll perform d calls

end Draft

/-- The construction of one function. -/
structure Session where
  name : String
  params : List (String × Ty)
  calls : List Draft.Call
  /-- Whether the draft is finished in the end; otherwise it is given up. -/
  finished : Bool

/-- What a session answers. -/
structure Session.Report where
  id : FunctionId
  answers : List (Except Error Draft.Answer)
  /-- The outcome of finishing, if that was tried. -/
  outcome : Option (Except Error FunctionId)

/-- Holds a session on a program. -/
def Session.run (s : Session) (p : Program) : Session.Report × Program :=
  let start := p.draft s.name s.params
  let (answers, d) := start.performAll s.calls
  if s.finished then
    match d.finish with
    | .ok (id, p) => (⟨start.id, answers, some (.ok id)⟩, p)
    | .error error => (⟨start.id, answers, some (.error error)⟩, d.program)
  else (⟨start.id, answers, none⟩, d.program)

namespace Program

/-- A step in the growth of a program. -/
inductive Step where
  | globalVariable (name : String) (storage : Ty) (initial : Option Int)
  | session (s : Session)

def perform (p : Program) : Step → Program
  | .globalVariable name storage initial => (p.addGlobal name storage initial).2
  | .session s => (s.run p).2

def performAll (p : Program) (steps : List Step) : Program := steps.foldl perform p

/-- A program that came about by some sequence of steps. -/
def Built (p : Program) : Prop := ∃ name steps, p = (empty name).performAll steps

end Program

end ReachingValues
