import ReachingValues.Handle

/-!
Instructions of basic blocks. An instruction is itself the value that it produces, be it of type
void, so one handle names both.
-/

namespace ReachingValues

inductive Opcode where
  | add | sub | mul | sdiv | udiv | and | or | xor | shl
  | icmp | fadd | fmul | zext | sext | trunc | sitofp | fptosi
  | alloca | load | store | call | phi | select
  | br | condbr | ret | unreachable
  deriving DecidableEq

namespace Opcode

def all : List Opcode :=
  [.add, .sub, .mul, .sdiv, .udiv, .and, .or, .xor, .shl,
    .icmp, .fadd, .fmul, .zext, .sext, .trunc, .sitofp, .fptosi,
    .alloca, .load, .store, .call, .phi, .select,
    .br, .condbr, .ret, .unreachable]

def mnemonic : Opcode → String
  | .add => "add"
  | .sub => "sub"
  | .mul => "mul"
  | .sdiv => "sdiv"
  | .udiv => "udiv"
  | .and => "and"
  | .or => "or"
  | .xor => "xor"
  | .shl => "shl"
  | .icmp => "icmp"
  | .fadd => "fadd"
  | .fmul => "fmul"
  | .zext => "zext"
  | .sext => "sext"
  | .trunc => "trunc"
  | .sitofp => "sitofp"
  | .fptosi => "fptosi"
  | .alloca => "alloca"
  | .load => "load"
  | .store => "store"
  | .call => "call"
  | .phi => "phi"
  | .select => "select"
  | .br => "br"
  | .condbr => "condbr"
  | .ret => "ret"
  | .unreachable => "unreachable"

/-- Whether the instruction ends its block. -/
def isTerminator : Opcode → Bool
  | .br | .condbr | .ret | .unreachable => true
  | _ => false

end Opcode

inductive Operand where
  | value (v : ValueId)
  | block (b : Node)
  | immediate (i : Int)
  deriving DecidableEq

structure Instruction where
  /-- The value that the instruction defines. -/
  value : ValueId
  opcode : Opcode
  operands : List Operand
  deriving DecidableEq

namespace Instruction

def isTerminator (i : Instruction) : Bool := i.opcode.isTerminator

/-- The blocks among the operands, in operand order and with repetitions. -/
def targets (i : Instruction) : List Node :=
  i.operands.filterMap fun
    | .block b => some b
    | _ => none

/-- The values among the operands, in operand order and with repetitions. -/
def uses (i : Instruction) : List ValueId :=
  i.operands.filterMap fun
    | .value v => some v
    | _ => none

end Instruction

end ReachingValues
