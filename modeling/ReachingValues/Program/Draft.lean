import ReachingValues.Program.Basic

/-!
Functions under construction. Every instruction is checked when it is appended, so a finished
function is well formed: its operands exist, every block has exactly one instruction that ends it,
the last one, and the control flow graph has the edges that these instructions name. A draft works
on the arena of its program: the values it makes stay there even if it is never finished.
-/

namespace ReachingValues

structure Draft where
  /-- The program with all values made so far. -/
  program : Program
  /-- The handle that the function gets when it is finished. -/
  id : FunctionId
  name : String
  params : List ValueId
  blocks : Array Block

/-- Makes the values of parameters, the first of which has the given position. -/
def Program.addParameters (p : Program) (function : FunctionId) (position : Nat) :
    List (String × Ty) → List ValueId × Program
  | [] => ([], p)
  | (name, ty) :: rest =>
    let (v, p) := p.addValue (some name) ty (.parameter function position)
    let (vs, p) := p.addParameters function (position + 1) rest
    (v :: vs, p)

/-- Starts a function; the values of its parameters are made at once. -/
def Program.draft (p : Program) (name : String) (params : List (String × Ty)) : Draft :=
  let id := p.functions.size
  let (vs, p) := p.addParameters id 0 params
  ⟨p, id, name, vs, #[]⟩

namespace Draft

def param (d : Draft) (position : Nat) : Except Error ValueId :=
  match d.params[position]? with
  | some v => .ok v
  | none => .error (.malformed (.noSuchParameter d.name d.params.length position))

/-- Adds an empty block. The first block added is the entry. -/
def addBlock (d : Draft) (label : String) : Node × Draft :=
  (d.blocks.size, { d with blocks := d.blocks.push ⟨label, #[]⟩ })

/-- What is wrong with an operand: it names a value or a block that does not exist. -/
def operandError (d : Draft) : Operand → Option Error
  | .value v => if v < d.program.valueCount then none else some (.unknownValue v)
  | .block b => if b < d.blocks.size then none else some (.unknownBlock b)
  | .immediate _ => none

/-- Adds an instruction at the end of a block and returns the value it defines. The block is
checked first, then the operands from left to right. -/
def append (d : Draft) (block : Node) (name : Option String) (opcode : Opcode) (ty : Ty)
    (operands : List Operand) : Except Error (ValueId × Draft) :=
  match d.blocks[block]? with
  | none => .error (.unknownBlock block)
  | some target =>
    if target.terminator.isSome then .error (.malformed (.blockClosed target.label opcode))
    else
      match operands.findSome? d.operandError with
      | some error => .error error
      | none =>
        let (v, program) := d.program.addValue name ty (.instruction d.id block)
        let extended := target.instructions.push ⟨v, opcode, operands⟩
        .ok (v, { d with
          program := program
          blocks := d.blocks.setIfInBounds block ⟨target.label, extended⟩ })

/-- The edges that leave a block, or the lack of an instruction that ends it. -/
def branches (d : Draft) (block : Node) (content : Block) : Except Error (List (Node × Node)) :=
  match content.terminator with
  | none => .error (.malformed (.blockOpen content.label d.name))
  | some last => .ok (last.targets.map (block, ·))

/-- The edges of the control flow graph, by block and in each block in operand order. -/
def edges (d : Draft) : Except Error (List (Node × Node)) := do
  return (← d.blocks.toList.zipIdx.mapM fun (content, block) => d.branches block content).flatten

/-- The control flow graph. -/
def flow (d : Draft) : Except Error (Graph Block) := do
  (← d.edges).foldlM (fun g edge => (g.addEdge edge.1 edge.2).mapError .edge)
    (Graph.ofLabels d.blocks)

/-- Adds the function to its program. -/
def finish (d : Draft) : Except Error (FunctionId × Program) := do
  if d.blocks.isEmpty then throw .empty
  let function : Function := ⟨d.id, d.name, d.params, ← d.flow⟩
  return (d.id, { d.program with functions := d.program.functions.push function })

end Draft

end ReachingValues
