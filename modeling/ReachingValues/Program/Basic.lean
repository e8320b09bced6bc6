import ReachingValues.Error
import ReachingValues.Dominators.Tree
import ReachingValues.Graph.Search
import ReachingValues.Program.Ty

/-!
Programs: one arena for the values of all functions, so that a handle names one value throughout,
the global variables among these values, and the functions with their control flow graphs.
-/

namespace ReachingValues

/-- Where a value comes from. -/
inductive Origin where
  /-- A global variable. The value is a pointer; what an analysis looks at is the type of the
  storage behind it. -/
  | globalVariable (storage : Ty) (initial : Option Int)
  | parameter (function : FunctionId) (position : Nat)
  | instruction (function : FunctionId) (block : Node)
  deriving DecidableEq

structure Value where
  id : ValueId
  name : Option String
  ty : Ty
  origin : Origin
  deriving DecidableEq

namespace Value

/-- The type by which an analysis sorts the value. -/
def contentTy (v : Value) : Ty :=
  match v.origin with
  | .globalVariable storage _ => storage
  | _ => v.ty

def isGlobal (v : Value) : Bool :=
  match v.origin with
  | .globalVariable .. => true
  | _ => false

def isParameter (v : Value) : Bool :=
  match v.origin with
  | .parameter .. => true
  | _ => false

/-- The block that computes the value, for results of instructions. -/
def definingBlock (v : Value) : Option Node :=
  match v.origin with
  | .instruction _ block => some block
  | _ => none

end Value

/-- A basic block: instructions in the order of their execution, the last of which ends the block
once it is complete. -/
structure Block where
  label : String
  instructions : Array Instruction
  deriving DecidableEq

/-- The last instruction, if it ends the block. -/
def Block.terminator (b : Block) : Option Instruction :=
  b.instructions.back?.filter (·.isTerminator)

/-- A function. Its first block is its entry. -/
structure Function where
  id : FunctionId
  name : String
  params : List ValueId
  flow : Graph Block

namespace Function

def entry (_ : Function) : Node := 0

def blockCount (f : Function) : Nat := f.flow.nodeCount

def block? (f : Function) (b : Node) : Option Block := f.flow.label? b

/-- The blocks that some path leads to from the entry. -/
def reachableBlocks (f : Function) : List Node := f.flow.depthFirst f.entry

def dominatorTree (f : Function) : Except Fault DominatorTree := f.flow.dominatorTree f.entry

end Function

structure Program where
  name : String
  values : Array Value
  /-- The global variables in the order of their declaration. -/
  globals : Array ValueId
  functions : Array Function

namespace Program

def empty (name : String) : Program := ⟨name, #[], #[], #[]⟩

/-- The number of values; every handle of a value is below it. -/
def valueCount (p : Program) : Nat := p.values.size

def value? (p : Program) (v : ValueId) : Option Value := p.values[v]?

def function (p : Program) (f : FunctionId) : Except Error Function :=
  match p.functions[f]? with
  | some function => .ok function
  | none => .error (.unknownFunction f)

/-- Makes a new value and returns its handle. -/
def addValue (p : Program) (name : Option String) (ty : Ty) (origin : Origin) :
    ValueId × Program :=
  (p.valueCount, { p with values := p.values.push ⟨p.valueCount, name, ty, origin⟩ })

/-- Declares a global variable with storage of the given type. -/
def addGlobal (p : Program) (name : String) (storage : Ty) (initial : Option Int) :
    ValueId × Program :=
  let (v, p) := p.addValue (some name) .pointer (.globalVariable storage initial)
  (v, { p with globals := p.globals.push v })

end Program

end ReachingValues
