import ReachingValues.Program.Basic

/-!
How values are written. A value is first described, with every reference it contains spelled out,
and the description is then put into words; so the text can be read off the description, and two
descriptions can be compared where only texts are seen.
-/

namespace ReachingValues

/-- An operand with its reference spelled out. -/
inductive OperandForm where
  | value (reference : String)
  | block (reference : String)
  | immediate (i : Int)
  deriving DecidableEq

def OperandForm.text : OperandForm → String
  | .value reference => reference
  | .block reference => "label " ++ reference
  | .immediate i => toString i

/-- The description of a value. -/
inductive ValueForm where
  /-- A global variable; without an initial value it is defined elsewhere. -/
  | globalVariable (reference : String) (storage : Ty) (initial : Option Int)
  | parameter (ty : Ty) (reference : String)
  /-- An instruction that produces a value. -/
  | definition (reference : String) (opcode : Opcode) (ty : Ty) (operands : List OperandForm)
  /-- An instruction that produces none. -/
  | effect (opcode : Opcode) (operands : List OperandForm)
  /-- A value of an instruction that is in no function. -/
  | stray (reference : String)
  /-- A handle without a value. -/
  | invalid (v : ValueId)
  deriving DecidableEq

namespace ValueForm

/-- Operands are set off by a blank and separated by commas. -/
def operandsText : List OperandForm → String
  | [] => ""
  | operands => " " ++ String.intercalate ", " (operands.map OperandForm.text)

def text : ValueForm → String
  | .globalVariable reference storage (some initial) =>
    reference ++ " = global " ++ storage.text ++ " " ++ toString initial
  | .globalVariable reference storage none => reference ++ " = external global " ++ storage.text
  | .parameter ty reference => ty.text ++ " " ++ reference
  | .definition reference opcode ty operands =>
    reference ++ " = " ++ opcode.mnemonic ++ " " ++ ty.text ++ operandsText operands
  | .effect opcode operands => opcode.mnemonic ++ operandsText operands
  | .stray reference => reference
  | .invalid v => "<invalid " ++ ValueId.text v ++ ">"

end ValueForm

/-- A value as operands name it: a sign that tells global variables apart, then the name, or the
handle of a value without one. -/
def Value.reference (v : Value) : String :=
  (if v.isGlobal then "@" else "%") ++ v.name.getD (toString v.id)

namespace Program

def reference (p : Program) (v : ValueId) : String :=
  match p.value? v with
  | some value => value.reference
  | none => (ValueForm.invalid v).text

/-- A block as operands name it, by its label, or by its handle if the function or the block does
not exist. -/
def blockReference (p : Program) (f : FunctionId) (b : Node) : String :=
  match p.functions[f]?.bind (·.block? b) with
  | some block => "%" ++ block.label
  | none => "%bb" ++ toString b

/-- The instruction that defines a value, looked for in the given block. -/
def instruction? (p : Program) (f : FunctionId) (b : Node) (v : ValueId) : Option Instruction :=
  (p.functions[f]?.bind (·.block? b)).bind fun block => block.instructions.find? (·.value == v)

/-- An operand of an instruction of the given function. -/
def operandForm (p : Program) (f : FunctionId) : Operand → OperandForm
  | .value v => .value (p.reference v)
  | .block b => .block (p.blockReference f b)
  | .immediate i => .immediate i

def valueForm (p : Program) (v : ValueId) : ValueForm :=
  match p.value? v with
  | none => .invalid v
  | some value =>
    match value.origin with
    | .globalVariable storage initial => .globalVariable value.reference storage initial
    | .parameter .. => .parameter value.ty value.reference
    | .instruction f b =>
      match p.instruction? f b value.id with
      | none => .stray value.reference
      | some i =>
        let operands := i.operands.map (p.operandForm f)
        if value.ty.isVoid then .effect i.opcode operands
        else .definition value.reference i.opcode value.ty operands

/-- A value in full, as the line that defines it. -/
def valueText (p : Program) (v : ValueId) : String := (p.valueForm v).text

end Program

end ReachingValues
